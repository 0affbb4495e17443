import GetterRename.Text.Base64
import GetterRename.Text.Double
import GetterRename.Yaml.Timestamp

/-!
# Scalars

What a scalar stands for: nothing, a truth value, a number, a point in time, or else a text.  A
scalar without quotes is what its form says; a tag asks for a kind.

- `Yaml.Scalar` : the values of scalars;
- `Scalar.ofPlain` : the value of a scalar without quotes;
- `Scalar.ofTagged` : the value of a scalar with a tag;
- `Scalar.isPlainText` : the texts that keep their meaning without quotes, for readers of older
  rules too.
-/

namespace GetterRename.Yaml

/-- The value of a scalar. -/
inductive Scalar where
  | null
  | bool (value : Bool)
  | int (value : Int)
  | float (value : Double)
  | time (value : Timestamp)
  | text (value : Bytes)
  deriving DecidableEq, Repr

/-! ## Numerals -/

/-- The value of a numeral whose base is named before its sign, as in `0b-101`. -/
def signBehindBase? (numeral : Bytes) : Option Int :=
  match Bytes.after? "0b" numeral, Bytes.after? "0o" numeral with
  | some rest, _ => (Numeral.signedIn 2 rest).toOption
  | none, some rest => (Numeral.signedIn 8 rest).toOption
  | none, none => none

/-- The value of an integer numeral: it fits 64 bits with a sign, or without one if it has none. -/
def integer? (numeral : Bytes) : Option Int :=
  match Numeral.integer numeral, Numeral.unsigned numeral with
  | .ok n, _ => some n
  | .error _, .ok n => some n
  | .error _, .error _ => none

/-- The exponent at the end of a numeral: none, or `e` with a signed integer. -/
def exponent? : Bytes → Option Int
  | [] => some 0
  | mark :: rest =>
    let (negative, digits) := Numeral.splitSign rest
    if (mark == byte 'e' || mark == byte 'E') && !digits.isEmpty && digits.all isDigitByte then
      some (if negative then -(Numeral.value digits : Int) else Numeral.value digits)
    else none

/-- The number that a decimal numeral is nearest to: digits, perhaps a fraction, perhaps an
exponent. A numeral that is too large stands for none. -/
def decimal? (numeral : Bytes) : Option Double := do
  let (negative, body) := Numeral.splitSign numeral
  let whole := body.takeWhile isDigitByte
  let rest := body.dropWhile isDigitByte
  let hasPoint := rest.head? == some (byte '.')
  let rest := if hasPoint then rest.drop 1 else rest
  let fraction := if hasPoint then rest.takeWhile isDigitByte else []
  guard (!(whole.isEmpty && fraction.isEmpty))
  let e ← exponent? (rest.drop fraction.length)
  let number := Double.ofDecimal negative (Numeral.value (whole ++ fraction)) (e - fraction.length)
  guard number.isFinite
  return number

/-- The numeral without underscores, if each stands between digits. -/
def ungrouped? (numeral : Bytes) : Option Bytes :=
  if Numeral.hasSeparators isDigitByte false numeral then some (numeral.filter (· != byte '_'))
  else none

/-! ## Scalars without quotes -/

namespace Scalar

/-- The name of the kind of a value. -/
def tag : Scalar → Bytes
  | null => "!!null"
  | bool _ => "!!bool"
  | int _ => "!!int"
  | float _ => "!!float"
  | time _ => "!!timestamp"
  | text _ => "!!str"

/-- The words with a fixed value. -/
def words : List (Scalar × List String) := [
  (.null, ["", "~", "null", "Null", "NULL"]),
  (.bool true, ["true", "True", "TRUE"]),
  (.bool false, ["false", "False", "FALSE"]),
  (.float .nan, [".nan", ".NaN", ".NAN"]),
  (.float (.infinity false), [".inf", ".Inf", ".INF", "+.inf", "+.Inf", "+.INF"]),
  (.float (.infinity true), ["-.inf", "-.Inf", "-.INF"])]

/-- The value of a word with a fixed one. -/
def ofWord? (word : Bytes) : Option Scalar :=
  (words.find? fun entry => entry.2.any (Bytes.ofString · = word)).map (·.1)

/-- The value of a scalar that starts like a number. Points in time are read as such if `withTime`
is set. -/
def ofNumeral (withTime : Bool) (written : Bytes) : Scalar :=
  match (if withTime then Timestamp.read? written else none) with
  | some t => .time t
  | none =>
    let plain := written.filter (· != byte '_')
    match integer? plain, decimal? plain, signBehindBase? plain with
    | some n, _, _ => .int n
    | none, some x, _ => .float x
    | none, none, some n => .int n
    | none, none, none => .text written

/-- The value of a scalar by its form. -/
def ofForm (withTime : Bool) (written : Bytes) : Scalar :=
  match ofWord? written, written with
  | some value, _ => value
  | none, [] => .null
  | none, first :: _ =>
    if isDigitByte first || first == byte '+' || first == byte '-' then ofNumeral withTime written
    else if first == byte '.' then
      match (ungrouped? written).bind decimal? with
      | some x => .float x
      | none => .text written
    else .text written

/-- The value of a scalar without quotes. -/
def ofPlain (written : Bytes) : Scalar := ofForm true written

/-- The words that older rules read as truth values. -/
def oldBools : List Bytes :=
  ["y", "Y", "yes", "Yes", "YES", "on", "On", "ON", "n", "N", "no", "No", "NO", "off", "Off",
    "OFF"].map Bytes.ofString

/-- Whether the text is a number below sixty, of one digit or two. -/
def isSixtieth : Bytes → Bool
  | [a] => isDigitByte a
  | [a, b] => byte '0' ≤ a && a ≤ byte '5' && isDigitByte b
  | _ => false

/-- Whether older rules read the text as a number in base sixty. -/
def isBaseSixty (written : Bytes) : Bool :=
  let body := (Numeral.splitSign written).2
  let (body, fraction) := Bytes.cutFirst (byte '.') body
  let isDigits (b : UInt8) := isDigitByte b || b == byte '_'
  match Bytes.splitOn (byte ':') body with
  | first :: second :: rest =>
    first.head?.any isDigitByte && first.all isDigits && (second :: rest).all isSixtieth
      && (fraction.getD []).all isDigits
  | _ => false

/-- Whether the text, written without quotes, is read as itself. -/
def isPlainText (text : Bytes) : Bool :=
  ofPlain text == .text text && !isBaseSixty text && !oldBools.contains text

/-! ## Scalars with tags -/

/-- Why a scalar does not go with its tag. -/
inductive Refusal where
  /-- A scalar of the kind `found` where the tag asks for another one. -/
  | wrongKind (found shown wanted : Bytes)
  | badBase64
  deriving DecidableEq, Repr

/-- The wording of a refusal. -/
def Refusal.message : Refusal → Bytes
  | wrongKind found shown wanted =>
    "cannot decode " ++ found ++ " `" ++ shown ++ "` as a " ++ wanted
  | badBase64 => "!!binary value contains invalid base64 data"

/-- The tags that ask for a kind other than text. -/
def kinds : List Bytes :=
  ["!!bool", "!!int", "!!float", "!!null", "!!timestamp"].map Bytes.ofString

/-- The value of a scalar with the given tag. Binary data is a text, and so is all that has a tag of
its own; a small integer may stand for a number with a fraction. -/
def ofTagged (tag written : Bytes) : Except Refusal Scalar :=
  if tag = Bytes.ofString "!!binary" then
    match Base64.decode? written with
    | some data => .ok (.text data)
    | none => .error .badBase64
  else if !kinds.contains tag then .ok (.text written)
  else
    let value := ofForm (tag = Bytes.ofString "!!timestamp") written
    match value with
    | .int n =>
      if tag = Bytes.ofString "!!float" && n < Numeral.limit then .ok (.float (.ofInt n))
      else if tag = value.tag then .ok value
      else .error (.wrongKind value.tag written tag)
    | _ => if tag = value.tag then .ok value else .error (.wrongKind value.tag written tag)

end Scalar

end GetterRename.Yaml
