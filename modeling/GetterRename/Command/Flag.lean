import GetterRename.Settings
import GetterRename.Text.Quoted

/-!
# Flags

The flags of the commands and how they are read: long ones as `--name value` or `--name=value`,
short ones as `-n value`, `-nvalue` or several in one word.  A flag that switches something needs no
value.

- `Flag` : the flags;
- `FlagError` : why arguments cannot be read;
- `Flag.parse` : the flags and the other arguments of a command.
-/

namespace GetterRename

/-- The flags. -/
inductive Flag where
  | exclude
  | parallel
  | conservative
  | report
  | verbose
  | quiet
  | logFile
  | help
  | diff
  | noDocAliases
  | tool
  deriving DecidableEq, Repr

/-- What a flag takes. -/
inductive Flag.Kind where
  /-- A truth value; without one the flag is true. -/
  | switch
  | number
  | text
  /-- A text; all that are given count. -/
  | texts
  deriving DecidableEq, Repr

namespace Flag

/-- The long name. -/
def name : Flag → String
  | exclude => "exclude"
  | parallel => "parallel"
  | conservative => "conservative"
  | report => "report"
  | verbose => "verbose"
  | quiet => "quiet"
  | logFile => "log-file"
  | help => "help"
  | diff => "diff"
  | noDocAliases => "no-doc-aliases"
  | tool => "tool"

/-- The short name. -/
def short? : Flag → Option Char
  | exclude => some 'x'
  | parallel => some 'p'
  | conservative => some 'c'
  | verbose => some 'v'
  | quiet => some 'q'
  | help => some 'h'
  | noDocAliases => some 'n'
  | tool => some 't'
  | report | logFile | diff => none

/-- What the flag takes. -/
def kind : Flag → Kind
  | exclude => .texts
  | parallel => .number
  | report | logFile | tool => .text
  | conservative | verbose | quiet | help | diff | noDocAliases => .switch

/-- The flags that every command has, in the order of their names. -/
def shared : List Flag := [conservative, exclude, logFile, parallel, quiet, report, verbose]

/-- The names as error messages show them. -/
def names (f : Flag) : Bytes :=
  match f.short? with
  | some c => "-" ++ [byte c] ++ Bytes.ofString (", --" ++ f.name)
  | none => Bytes.ofString ("--" ++ f.name)

end Flag

/-- Why arguments cannot be read. -/
inductive FlagError where
  | badForm (word : Bytes)
  | unknown (name : Bytes)
  | unknownShort (short : UInt8) (word : Bytes)
  | noValue (name : Bytes)
  | noShortValue (short : UInt8) (word : Bytes)
  | badBool (flag : Flag) (value : Bytes)
  | badNumber (flag : Flag) (value : Bytes) (cause : Numeral.Refusal)
  deriving DecidableEq, Repr

namespace FlagError

/-- The wording of a value that a flag does not take. -/
def badValue (flag : Flag) (value cause : Bytes) : Bytes :=
  "invalid argument " ++ Quoted.string value ++ " for " ++ Quoted.string flag.names ++ " flag: "
    ++ cause

/-- The character that stands for a short name in messages: one that is no character of its own is
shown as the first byte of its longer form. -/
def shownShort (short : UInt8) : Bytes :=
  Quoted.character ((Utf8.encode short.toNat).headD short).toNat

/-- The wording of an error. -/
def message : FlagError → Bytes
  | badForm word => "bad flag syntax: " ++ word
  | unknown name => "unknown flag: --" ++ name
  | unknownShort short word =>
    "unknown shorthand flag: " ++ shownShort short ++ " in -" ++ word
  | noValue name => "flag needs an argument: --" ++ name
  | noShortValue short word =>
    "flag needs an argument: " ++ shownShort short ++ " in -" ++ word
  | badBool flag value =>
    badValue flag value ("strconv.ParseBool: parsing " ++ Quoted.string value ++ ": invalid syntax")
  | badNumber flag value cause =>
    badValue flag value
      ("strconv.ParseInt: parsing " ++ Quoted.string value ++ ": " ++ Bytes.ofString cause.message)

end FlagError

namespace Flag

/-- Checks a value for a flag. -/
def check (flag : Flag) (value : Bytes) : Except FlagError (Flag × Bytes) :=
  match flag.kind with
  | .switch =>
    if (Convert.truthWord? value).isSome then .ok (flag, value) else .error (.badBool flag value)
  | .number =>
    match Numeral.integer value with
    | .ok _ => .ok (flag, value)
    | .error cause => .error (.badNumber flag value cause)
  | .text | .texts => .ok (flag, value)

/-- The flag with the given long name. -/
def named? (flags : List Flag) (name : Bytes) : Option Flag :=
  flags.find? fun f => Bytes.ofString f.name = name

/-- The flag with the given short name. -/
def ofShort? (flags : List Flag) (short : UInt8) : Option Flag :=
  flags.find? fun f => f.short?.map byte = some short

/-- The value of a switch that is given without one. -/
def on : Bytes := "true"

/-- What the arguments of a command hold. -/
structure Parsed where
  /-- The flags in the order in which they are given. -/
  given : List (Flag × Bytes) := []
  /-- The other arguments. -/
  args : List Bytes := []
  deriving DecidableEq, Repr

/-- A long flag `--name` with the words behind it: the flag, its value, and the words left. -/
def readLong (flags : List Flag) (name : Bytes) (rest : List Bytes) :
    Except FlagError ((Flag × Bytes) × List Bytes) :=
  match Bytes.cutFirst (byte '=') name with
  | (name, value) =>
    match named? flags name with
    | none => .error (.unknown name)
    | some flag =>
      match value with
      | some value => (flag.check value).map (·, rest)
      | none =>
        if flag.kind = .switch then (flag.check on).map (·, rest)
        else
          match rest with
          | value :: rest => (flag.check value).map (·, rest)
          | [] => .error (.noValue name)

/-- The start of the words that belong to a test of the program and are passed over. -/
def testMark : Bytes := "test."

/-- The short flags of one word with the words behind it: the flags, their values, and the words
left. -/
def readShort (flags : List Flag) (rest : List Bytes) :
    Bytes → Except FlagError (List (Flag × Bytes) × List Bytes)
  | [] => .ok ([], rest)
  | short :: more =>
    if Bytes.startsWith (short :: more) testMark then .ok ([], rest)
    else
      match ofShort? flags short with
      | none => .error (.unknownShort short (short :: more))
      | some flag =>
        let last (value : Bytes) (rest : List Bytes) := (flag.check value).map fun f => ([f], rest)
        if more.head? = some (byte '=') && 1 < more.length then last (more.drop 1) rest
        else if flag.kind = .switch then do
          let first ← flag.check on
          let (others, rest) ← readShort flags rest more
          return (first :: others, rest)
        else if !more.isEmpty then last more rest
        else
          match rest with
          | value :: rest => last value rest
          | [] => .error (.noShortValue short (short :: more))

/-- The flags and the other arguments among the words of a command line. Behind the word `--` there
are no flags. Reading a word never gives words back, so the number of words bounds the steps. -/
def parseFrom (flags : List Flag) : Nat → List Bytes → Except FlagError Parsed
  | 0, _ => .ok {}
  | _, [] => .ok {}
  | steps + 1, word :: rest =>
    match word with
    | a :: b :: more =>
      if a != byte '-' then argument steps word rest
      else if b == byte '-' then
        if more.isEmpty then .ok { args := rest }
        else if more.head? = some (byte '-') || more.head? = some (byte '=') then
          .error (.badForm word)
        else do
          let (flag, rest) ← readLong flags more rest
          let parsed ← parseFrom flags steps rest
          return { parsed with given := flag :: parsed.given }
      else do
        let (found, rest) ← readShort flags rest (b :: more)
        let parsed ← parseFrom flags steps rest
        return { parsed with given := found ++ parsed.given }
    | _ => argument steps word rest
where
  /-- A word that is no flag. -/
  argument (steps : Nat) (word : Bytes) (rest : List Bytes) : Except FlagError Parsed := do
    let parsed ← parseFrom flags steps rest
    return { parsed with args := word :: parsed.args }

/-- The flags and the other arguments among the words of a command line. -/
def parse (flags : List Flag) (words : List Bytes) : Except FlagError Parsed :=
  parseFrom flags words.length words

namespace Parsed

/-- Whether a flag is given. -/
def has (p : Parsed) (flag : Flag) : Bool := p.given.any (·.1 = flag)

/-- The last value that is given for a flag. -/
def last? (p : Parsed) (flag : Flag) : Option Bytes :=
  (p.given.reverse.find? (·.1 = flag)).map (·.2)

/-- Whether a switch is on. -/
def isOn (p : Parsed) (flag : Flag) : Bool :=
  ((p.last? flag).bind Convert.truthWord?).getD false

/-- All values that are given for a flag. -/
def all (p : Parsed) (flag : Flag) : List Bytes :=
  (p.given.filter (·.1 = flag)).map (·.2)

/-- The text with line breaks of two bytes written as one. -/
def unifyBreaks : Bytes → Bytes
  | [] => []
  | b :: rest =>
    if b == byte '\r' && rest.head? = some (byte '\n') then unifyBreaks rest
    else b :: unifyBreaks rest

/-- The exclude patterns that are given; a single empty one stands for none. -/
def patterns (p : Parsed) : List Bytes :=
  match p.all .exclude with
  | [[]] => []
  | patterns => patterns.map unifyBreaks

/-- The settings that are given as flags. -/
def settings (p : Parsed) : List (Setting × Yaml.Value) :=
  let number (text : Bytes) := (Numeral.integer text).toOption.getD 0
  (if p.has .exclude then [(.exclude, .list (p.patterns.map .text))] else [])
    ++ ((p.last? .parallel).map fun t => (.parallel, .int (number t))).toList
    ++ (if p.has .conservative then [(.conservative, .bool (p.isOn .conservative))] else [])
    ++ ((p.last? .report).map fun t => (.report, .text t)).toList

end Parsed

end Flag

end GetterRename
