import GetterRename.Text.Numeral

/-!
# Timestamps

The scalars that are read as a point in time: a date, and a date with a time of day behind a `T`, a
`t` or blanks.  A time behind a letter has a zone, one behind blanks has none.

- `Timestamp` : a point in time with the zone in which it is given;
- `Timestamp.read?` : the point in time that a text stands for;
- `Timestamp.written`, `Timestamp.spoken` : the texts for documents and for other uses.
-/

namespace GetterRename.Yaml

/-- A point in time as a date and a time of day in a zone. -/
structure Timestamp where
  year : Nat
  month : Nat
  day : Nat
  hour : Nat := 0
  minute : Nat := 0
  second : Nat := 0
  nanosecond : Nat := 0
  /-- The minutes that the zone is ahead. -/
  zone : Int := 0
  deriving DecidableEq, Repr

namespace Timestamp

/-! ## Reading -/

/-- One or two digits at the head of a text as a number, and what follows them. -/
def shortNumber? : Bytes → Option (Nat × Bytes)
  | a :: b :: rest =>
    if !isDigitByte a then none
    else if isDigitByte b then some ((a.toNat - 48) * 10 + (b.toNat - 48), rest)
    else some (a.toNat - 48, b :: rest)
  | [a] => if isDigitByte a then some (a.toNat - 48, []) else none
  | [] => none

/-- A number below `limit` with one or two digits at the head of a text, and what follows it. -/
def below? (limit : Nat) (text : Bytes) : Option (Nat × Bytes) :=
  (shortNumber? text).filter (·.1 < limit)

/-- Whether the year has a day more than usual. -/
def isLeap (year : Nat) : Bool := year % 4 == 0 && (year % 100 != 0 || year % 400 == 0)

/-- The number of days of a month. -/
def daysIn (year month : Nat) : Nat :=
  if month = 2 then if isLeap year then 29 else 28
  else if [4, 6, 9, 11].contains month then 30
  else 31

/-- The date at the head of a text, a year of four digits, a month and a day, and what follows it.
-/
def date? (text : Bytes) : Option (Timestamp × Bytes) := do
  let digits := text.takeWhile isDigitByte
  guard (digits.length = 4)
  let year := Numeral.value digits
  let (month, rest) ← shortNumber? (← Bytes.after? "-" (text.drop 4))
  let (day, rest) ← shortNumber? (← Bytes.after? "-" rest)
  guard (1 ≤ month && month ≤ 12 && 1 ≤ day && day ≤ daysIn year month)
  return ({ year, month, day }, rest)

/-- The billionths that the digits of a fraction stand for; digits behind the ninth are dropped. -/
def nanoseconds (digits : Bytes) : Nat :=
  let digits := digits.take 9
  Numeral.value digits * Nat.pow 10 (9 - digits.length)

/-- The fraction of a second at the head of a text, zero if there is none, and what follows it. -/
def fraction (text : Bytes) : Nat × Bytes :=
  match text with
  | mark :: rest =>
    let digits := rest.takeWhile isDigitByte
    if (mark == byte '.' || mark == byte ',') && !digits.isEmpty then
      (nanoseconds digits, rest.drop digits.length)
    else (0, text)
  | [] => (0, [])

/-- The date with the time of day at the head of a text: hours, minutes, seconds and perhaps a
fraction, and what follows it. -/
def time? (date : Timestamp) (text : Bytes) : Option (Timestamp × Bytes) := do
  let (hour, rest) ← below? 24 text
  let (minute, rest) ← below? 60 (← Bytes.after? ":" rest)
  let (second, rest) ← below? 60 (← Bytes.after? ":" rest)
  let (nanosecond, rest) := fraction rest
  return ({ date with hour, minute, second, nanosecond }, rest)

/-- The minutes ahead that a zone stands for: none for `Z`, else hours and minutes with a sign. -/
def zone? : Bytes → Option Int
  | [z] => if z == byte 'Z' then some 0 else none
  | [sign, a, b, colon, c, d] =>
    let hours := Numeral.value [a, b]
    let minutes := Numeral.value [c, d]
    if (sign == byte '+' || sign == byte '-') && colon == byte ':' && [a, b, c, d].all isDigitByte
        && hours ≤ 24 && minutes ≤ 60 then
      let ahead : Int := hours * 60 + minutes
      some (if sign == byte '-' then -ahead else ahead)
    else none
  | _ => none

/-- The point in time that a text stands for. -/
def read? (text : Bytes) : Option Timestamp := do
  let (date, rest) ← date? text
  match rest with
  | [] => return date
  | mark :: rest =>
    if mark == byte 'T' || mark == byte 't' then
      let (moment, rest) ← time? date rest
      return { moment with zone := ← zone? rest }
    else
      guard (mark == byte ' ')
      let (moment, rest) ← time? date (rest.dropWhile (· == byte ' '))
      guard rest.isEmpty
      return moment

/-! ## Writing -/

/-- A number with the given number of digits at least. -/
def padded (width n : Nat) : Bytes :=
  let digits := Bytes.ofNat n
  List.replicate (width - digits.length) (byte '0') ++ digits

/-- The date, with dashes. -/
def dateText (t : Timestamp) : Bytes :=
  padded 4 t.year ++ "-" ++ padded 2 t.month ++ "-" ++ padded 2 t.day

/-- The time of day, with colons, and the fraction without the zeros at its end. -/
def timeText (t : Timestamp) : Bytes :=
  let fraction := Bytes.dropEndWhile (· == byte '0') (padded 9 t.nanosecond)
  padded 2 t.hour ++ ":" ++ padded 2 t.minute ++ ":" ++ padded 2 t.second
    ++ if t.nanosecond = 0 then [] else byte '.' :: fraction

/-- The hours and minutes of the zone with their sign and `mark` between them. -/
def zoneText (mark : Bytes) (t : Timestamp) : Bytes :=
  let minutes := t.zone.natAbs
  (if t.zone < 0 then byte '-' else byte '+') :: padded 2 (minutes / 60) ++ mark
    ++ padded 2 (minutes % 60)

/-- The point in time as documents hold it. -/
def written (t : Timestamp) : Bytes :=
  t.dateText ++ "T" ++ t.timeText ++ if t.zone = 0 then [byte 'Z'] else t.zoneText ":"

/-- The point in time with blanks between its parts; a zone without a name is its own name. -/
def spoken (t : Timestamp) : Bytes :=
  t.dateText ++ " " ++ t.timeText ++ " " ++ t.zoneText [] ++ " "
    ++ if t.zone = 0 then Bytes.ofString "UTC" else t.zoneText []

end Timestamp

end GetterRename.Yaml
