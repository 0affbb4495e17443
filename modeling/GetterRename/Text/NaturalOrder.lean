import GetterRename.Text.CharClass
import GetterRename.Text.Utf8

/-!
# Natural order

The order of keys in which numbers inside the text count by their value: `a2` comes before `a10`.
Where the texts first differ, two letters compare as letters, a letter comes behind other characters
unless digits precede it, and two numbers compare by value and then by length.

- `NaturalOrder.less` : whether a text comes before another;
- `NaturalOrder.le` : the order as a test for sorting.
-/

namespace GetterRename.NaturalOrder

/-- The value of the digits at the head of the characters behind the value `n`, as far as 64 bits
hold it, and their number. -/
def numberFrom (n : Int) (count : Nat) : List Nat → Int × Nat
  | [] => (n, count)
  | c :: rest =>
    if CharClass.isDecimalDigit c then
      numberFrom (Int.bmod (n * 10 + (c - '0'.toNat : Nat)) 0x10000000000000000) (count + 1) rest
    else (n, count)

/-- Whether the characters `as` come before `bs` where their heads differ. `behindDigit` says
whether a digit comes before both, and `behindNumber` whether that digit belongs to a number with
more than zeros. -/
def lessHere (behindDigit behindNumber : Bool) (as bs : List Nat) : Bool :=
  let a := as.headD 0
  let b := bs.headD 0
  let aLetter := CharClass.isLetter a
  let bLetter := CharClass.isLetter b
  if aLetter && bLetter then a < b
  else if aLetter || bLetter then if behindDigit then aLetter else bLetter
  else
    let start : Int := if (a = '0'.toNat || b = '0'.toNat) && behindNumber then 1 else 0
    let (an, aCount) := numberFrom start 0 as
    let (bn, bCount) := numberFrom start 0 bs
    if an != bn then an < bn
    else if aCount != bCount then aCount < bCount
    else a < b

/-- Whether the characters `as` come before `bs`. -/
def lessFrom (behindDigit behindNumber : Bool) : List Nat → List Nat → Bool
  | a :: as, b :: bs =>
    if a = b then
      let isDigit := CharClass.isDecimalDigit a
      lessFrom isDigit (isDigit && (behindNumber || a != '0'.toNat)) as bs
    else lessHere behindDigit behindNumber (a :: as) (b :: bs)
  | [], _ :: _ => true
  | _, [] => false

/-- The characters of a text. -/
def codes (text : Bytes) : List Nat := (Utf8.chars text).map fun c => c.1.getD Utf8.replacement

/-- Whether a text comes before another. -/
def less (a b : Bytes) : Bool := lessFrom false false (codes a) (codes b)

/-- Whether a text comes before another or at the same place. -/
def le (a b : Bytes) : Bool := !less b a

end GetterRename.NaturalOrder
