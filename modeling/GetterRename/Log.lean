import GetterRename.Text.Blank
import GetterRename.Text.LetterCase
import GetterRename.Text.Numeral

/-!
# Log records

What a run has to say besides its result, as values: a level, a message and named attributes.

- `Log.Level` : how much a record matters;
- `Log.threshold?` : the number that a text asks for;
- `LogRecord` : one record.
-/

namespace GetterRename

/-- How much a record matters. -/
inductive Log.Level where
  | trace
  | debug
  | info
  | warn
  | error
  deriving DecidableEq, Repr

namespace Log.Level

/-- The number of a level; records at or above the chosen number are kept. -/
def number : Level → Int
  | trace => -8
  | debug => -4
  | info => 0
  | warn => 4
  | error => 8

/-- The name of a level. -/
def name : Level → String
  | trace => "DEBUG-4"
  | debug => "DEBUG"
  | info => "INFO"
  | warn => "WARN"
  | error => "ERROR"

end Log.Level

/-- The number that the name of a level or a numeral stands for; case and blanks do not matter. -/
def Log.threshold? (text : Bytes) : Option Int :=
  let word := LetterCase.toLower (Blank.trim text)
  let isOne (names : List String) := names.any (Bytes.ofString · = word)
  if isOne ["trace"] then some Level.trace.number
  else if isOne ["debug"] then some Level.debug.number
  else if isOne ["info"] then some Level.info.number
  else if isOne ["warn", "warning"] then some Level.warn.number
  else if isOne ["error"] then some Level.error.number
  else Numeral.decimal? word

/-- One record. -/
structure LogRecord where
  level : Log.Level
  message : String
  attrs : List (String × Bytes)
  deriving DecidableEq, Repr

end GetterRename
