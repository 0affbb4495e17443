import GetterRename.Text.Bytes

/-!
# Double-precision numbers

Numbers `± m · 2 ^ q` with 53 binary digits, infinity, and the value that is no number.  Everything
is exact arithmetic on natural numbers: a quotient is rounded to the nearest such number, and a
number is written with the fewest decimal digits that are rounded to it again.

- `Double` : the numbers;
- `Double.ofQuotient`, `Double.ofDecimal` : the nearest number, a tie going to the even one;
- `Double.shortest` : the fewest digits that read back;
- `Double.positional`, `Double.scientific` : the notations;
- `Double.truncate` : the integer part in 64 bits.
-/

namespace GetterRename

/-- A double-precision number. -/
inductive Double where
  | nan
  | infinity (negative : Bool)
  /-- `± mantissa · 2 ^ exponent`, with a mantissa below `2 ^ 53`. -/
  | finite (negative : Bool) (mantissa : Nat) (exponent : Int)
  deriving DecidableEq, Repr

namespace Double

/-! ## Rounding -/

/-- The nearest integer to a quotient, of two the even one. -/
def roundQuotient (num den : Nat) : Nat :=
  let whole := num / den
  let twice := 2 * (num % den)
  if twice < den then whole
  else if den < twice then whole + 1
  else whole + whole % 2

/-- The least exponent. -/
def leastExponent : Int := -1074

/-- The greatest exponent. -/
def greatestExponent : Int := 971

/-- The quotient `num / (den · 2 ^ exponent)`. -/
def scaled (num den : Nat) (exponent : Int) : Nat × Nat :=
  if 0 ≤ exponent then (num, den * Nat.pow 2 exponent.toNat)
  else (num * Nat.pow 2 (-exponent).toNat, den)

/-- The exponent with which the quotient has 53 binary digits, unless it is less than the least. -/
def exponentOf (num den : Nat) : Int :=
  let guess : Int := (Nat.log2 num : Int) - Nat.log2 den - 53
  let (n, d) := scaled num den guess
  max leastExponent (if n < d * Nat.pow 2 53 then guess else guess + 1)

/-- The number nearest to a quotient. -/
def ofQuotient (negative : Bool) (num den : Nat) : Double :=
  if num = 0 then .finite negative 0 leastExponent
  else
    let exponent := exponentOf num den
    let (n, d) := scaled num den exponent
    let mantissa := roundQuotient n d
    let (mantissa, exponent) :=
      if mantissa = Nat.pow 2 53 then (Nat.pow 2 52, exponent + 1) else (mantissa, exponent)
    if greatestExponent < exponent then .infinity negative
    else if mantissa = 0 then .finite negative 0 leastExponent
    else .finite negative mantissa exponent

/-- The number nearest to `± digits · 10 ^ exponent`. Where the exponent alone settles the matter,
no power is computed. -/
def ofDecimal (negative : Bool) (digits : Nat) (exponent : Int) : Double :=
  let size : Int := (Nat.toDigits 10 digits).length
  if digits = 0 || size + exponent < -330 then .finite negative 0 leastExponent
  else if 310 < size + exponent then .infinity negative
  else if 0 ≤ exponent then ofQuotient negative (digits * Nat.pow 10 exponent.toNat) 1
  else ofQuotient negative digits (Nat.pow 10 (-exponent).toNat)

/-- The number nearest to an integer. -/
def ofInt (n : Int) : Double := ofQuotient (n < 0) n.natAbs 1

/-- Whether the number is zero. -/
def isZero : Double → Bool
  | finite _ mantissa _ => mantissa = 0
  | _ => false

/-- Whether the number is neither infinite nor undefined. -/
def isFinite : Double → Bool
  | finite .. => true
  | _ => false

/-- The number without its fraction in 64 bits; what does not fit is the least integer. -/
def truncate : Double → Int
  | finite negative mantissa exponent =>
    let size := if 0 ≤ exponent then mantissa * Nat.pow 2 exponent.toNat
      else mantissa / Nat.pow 2 (-exponent).toNat
    let n : Int := if negative then -size else size
    if -0x8000000000000000 ≤ n && n < 0x8000000000000000 then n else -0x8000000000000000
  | _ => -0x8000000000000000

/-- The number in units of the least positive one; infinity is beyond all numbers. -/
def units? : Double → Option Int
  | nan => none
  | infinity negative => some (if negative then -Nat.pow 2 2200 else Nat.pow 2 2200)
  | finite negative mantissa exponent =>
    let size : Int := mantissa * Nat.pow 2 (exponent - leastExponent).toNat
    some (if negative then -size else size)

/-- Whether a number is less than another; nothing is less than what is no number. -/
def less (x y : Double) : Bool :=
  match x.units?, y.units? with
  | some a, some b => a < b
  | _, _ => false

/-- Whether two numbers are equal; what is no number is not equal to itself. -/
def equal (x y : Double) : Bool :=
  match x.units?, y.units? with
  | some a, some b => a = b
  | _, _ => false

/-! ## Decimal digits -/

/-- A decimal number `digits · 10 ^ exponent`. -/
structure Decimal where
  digits : Nat
  exponent : Int
  deriving DecidableEq, Repr

namespace Decimal

/-- The digits as text. -/
def text (d : Decimal) : Bytes := Bytes.ofNat d.digits

/-- The number of digits before the point; it is negative if zeros follow the point. -/
def point (d : Decimal) : Int := (d.text.length : Int) + d.exponent

end Decimal

/-- The quotient that a mantissa and an exponent stand for. -/
def quotient (mantissa : Nat) (exponent : Int) : Nat × Nat :=
  if 0 ≤ exponent then (mantissa * Nat.pow 2 exponent.toNat, 1)
  else (mantissa, Nat.pow 2 (-exponent).toNat)

/-- The quotient in units of `10 ^ exponent`. -/
def inUnits (num den : Nat) (exponent : Int) : Nat × Nat :=
  if 0 ≤ exponent then (num, den * Nat.pow 10 exponent.toNat)
  else (num * Nat.pow 10 (-exponent).toNat, den)

/-- The number of decimal digits before the point of a quotient. -/
def decimalPoint (num den : Nat) : Int :=
  let size (n : Nat) : Int := (Nat.toDigits 10 n).length
  let guess := size num - size den
  let (n, d) := inUnits num den guess
  if n < d then guess else guess + 1

/-- The decimal with the given exponent next to a quotient that reads back as `x`, if there is one:
of the two next to it the nearer, of two equally near ones the even one. -/
def onGrid? (x : Double) (num den : Nat) (exponent : Int) : Option Decimal :=
  let (n, d) := inUnits num den exponent
  let below := n / d
  let nearest := roundQuotient n d
  let other := if nearest = below then below + 1 else below
  ([nearest, other].find? fun c => ofDecimal false c exponent = x).map fun c =>
    -- ten units of one digit are one unit of the next
    if c = 10 then ⟨1, exponent + 1⟩ else ⟨c, exponent⟩

/-- The fewest digits that read back as a number with the given mantissa and exponent; seventeen are
always enough. -/
def shortest (mantissa : Nat) (exponent : Int) : Decimal :=
  let (num, den) := quotient mantissa exponent
  let point := decimalPoint num den
  let grid := fun (i : Nat) => onGrid? (.finite false mantissa exponent) num den (point - 1 - i)
  ((List.range 17).findSome? grid).getD ⟨0, 0⟩

/-! ## Notations -/

/-- Zeros. -/
def zeros (n : Int) : Bytes := List.replicate n.toNat (byte '0')

/-- The digits with a point among them and no exponent. -/
def Decimal.positional (d : Decimal) : Bytes :=
  if d.point ≤ 0 then "0." ++ zeros (-d.point) ++ d.text
  else if 0 ≤ d.exponent then d.text ++ zeros d.exponent
  else d.text.take d.point.toNat ++ "." ++ d.text.drop d.point.toNat

/-- An exponent with its sign and two digits at least. -/
def exponentText (e : Int) : Bytes :=
  let digits := Bytes.ofNat e.natAbs
  (if e < 0 then byte '-' else byte '+') :: zeros (2 - digits.length) ++ digits

/-- One digit before the point, and the exponent. -/
def Decimal.scientific (d : Decimal) : Bytes :=
  let fraction := d.text.drop 1
  d.text.take 1 ++ (if fraction.isEmpty then [] else byte '.' :: fraction) ++ "e"
    ++ exponentText (d.point - 1)

/-- A number written with the fewest digits in the notation of `write`, with words for the values
that have no digits. -/
def render (nan infinity minusInfinity : String) (write : Decimal → Bytes) : Double → Bytes
  | .nan => Bytes.ofString nan
  | .infinity negative => Bytes.ofString (if negative then minusInfinity else infinity)
  | .finite negative mantissa exponent =>
    (if negative then [byte '-'] else [])
      ++ if mantissa = 0 then [byte '0'] else write (shortest mantissa exponent)

end Double

end GetterRename
