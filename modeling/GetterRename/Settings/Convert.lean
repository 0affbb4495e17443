import GetterRename.Text.Blank
import GetterRename.Yaml.Value

/-!
# Conversions of settings

What a value means where a truth value, a number, a text or a list of texts is wanted.  A value that
means nothing there counts as false, zero or empty.

- `Convert.truthWord?` : the words for truth values;
- `Convert.bool`, `Convert.int`, `Convert.text`, `Convert.texts` : the conversions.
-/

namespace GetterRename.Convert

open Yaml

/-- The truth value of a word. -/
def truthWord? (word : Bytes) : Option Bool :=
  if ["1", "t", "T", "TRUE", "true", "True"].any (Bytes.ofString · = word) then some true
  else if ["0", "f", "F", "FALSE", "false", "False"].any (Bytes.ofString · = word) then some false
  else none

/-- A value as a truth value. -/
def bool : Option Value → Bool
  | some (.scalar (.bool b)) => b
  | some (.scalar (.int n)) => n != 0
  | some (.scalar (.float x)) => !x.isZero
  | some (.scalar (.text word)) => (truthWord? word).getD false
  | _ => false

/-- The integer part of a decimal numeral; any other text stays as it is. -/
def dropFraction (text : Bytes) : Bytes :=
  match Bytes.cutFirst (byte '.') text with
  | (whole, some fraction) =>
    let digits := (Numeral.splitSign whole).2
    if digits.all isDigitByte && fraction.all isDigitByte then
      if digits.isEmpty then whole ++ [byte '0'] else whole
    else text
  | (_, none) => text

/-- A value as a number of 64 bits; an integer beyond them wraps around. -/
def int : Option Value → Int
  | some (.scalar (.int n)) => n.bmod Numeral.wordLimit
  | some (.scalar (.bool b)) => if b then 1 else 0
  | some (.scalar (.float x)) => x.truncate
  | some (.scalar (.text word)) => (Numeral.integer (dropFraction word)).toOption.getD 0
  | _ => 0

/-- A scalar as a text. -/
def ofScalar : Scalar → Bytes
  | .null => []
  | .bool b => Bytes.ofString (if b then "true" else "false")
  | .int n => Bytes.ofInt n
  | .float x => x.render "NaN" "+Inf" "-Inf" Double.Decimal.positional
  | .time t => t.spoken
  | .text t => t

/-- A value as a text. -/
def text : Option Value → Bytes
  | some (.scalar s) => ofScalar s
  | _ => []

/-- A scalar as a text; lists and maps are none. -/
def text? : Value → Option Bytes
  | .scalar s => some (ofScalar s)
  | _ => none

/-- A value as a list of texts: a text gives its words. A list with lists or maps in it gives none.
-/
def texts : Option Value → List Bytes
  | some (.list items) => (items.mapM text?).getD []
  | some (.scalar (.text words)) => Blank.fields words
  | some (.scalar .null) => []
  | some (.scalar s) => [ofScalar s]
  | _ => []

end GetterRename.Convert
