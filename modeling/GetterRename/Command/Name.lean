import GetterRename.Command.Flag

/-!
# Commands

The commands, and how the words of a command line name one of them.  Flags may stand before the
name; a word that may be the value of a flag is never taken for it.

- `Command` : the commands;
- `Command.find` : the command of a command line and the words that are left for it;
- `Command.suggestions` : commands with names close to a word that is none.
-/

namespace GetterRename

/-- The name of the program. -/
def programName : String := "fixgetters"

/-- The commands. -/
inductive Command where
  /-- The program without a command. -/
  | root
  | calls
  | defs
  | init
  | list
  | version
  | view
  | help
  deriving DecidableEq, Repr

namespace Command

/-- The word that names a command. -/
def name : Command → String
  | root => programName
  | calls => "calls"
  | defs => "defs"
  | init => "init"
  | list => "list"
  | version => "version"
  | view => "view"
  | help => "help"

/-- The commands that have a name of their own. -/
def all : List Command := [calls, defs, init, list, version, view, help]

/-- The command with the given name. -/
def named? (word : Bytes) : Option Command := all.find? fun c => Bytes.ofString c.name = word

/-- The names that may be suggested: those of the commands that do some work, and the one for shell
completions. -/
def suggested : List Bytes :=
  (all.filter (· ≠ help)).map (fun c => Bytes.ofString c.name) ++ [Bytes.ofString "completion"]

/-- The flags that only this command has, in the order of their names. -/
def flags : Command → List Flag
  | calls => [.diff, .help]
  | defs => [.diff, .help, .noDocAliases]
  | list => [.help, .tool]
  | root | init | version | view | help => [.help]

/-! ## The words of a command line -/

/-- Whether the word is a flag whose value is the next word. A flag that not every command has is
taken for one. -/
def takesNext (word : Bytes) : Bool :=
  !word.contains (byte '=') &&
    match word with
    | a :: b :: rest =>
      let flag := if b == byte '-' then Flag.named? Flag.shared rest else Flag.ofShort? Flag.shared b
      a == byte '-' && (b == byte '-' || rest.isEmpty) && !flag.any (·.kind = .switch)
    | _ => false

/-- The words that are neither flags nor their values. -/
def plainWords : List Bytes → List Bytes
  | [] => []
  | word :: rest =>
    if word = Bytes.ofString "--" then []
    else if takesNext word then
      match rest with
      | _ :: next :: more => plainWords (next :: more)
      | _ => []
    else if word.head?.any (· != byte '-') then word :: plainWords rest
    else plainWords rest

/-- The words without the first one that is `name` and no value of a flag. -/
def removeName (name : Bytes) : List Bytes → List Bytes
  | [] => []
  | word :: rest =>
    if word = Bytes.ofString "--" then word :: rest
    else if takesNext word then
      match rest with
      | value :: more => word :: value :: removeName name more
      | [] => [word]
    else if word = name then rest
    else word :: removeName name rest

/-- The command of a command line and the words left for it, or the word that names no command. -/
def find (words : List Bytes) : Except Bytes (Command × List Bytes) :=
  match plainWords words with
  | [] => .ok (root, words)
  | word :: _ =>
    match named? word with
    | some command => .ok (command, removeName word words)
    | none => .error word

/-! ## Suggestions -/

/-- The next row of the table of edit distances, for the characters `bs` of one word behind the
character `a` of the other. `above` is the row before, and `corner` and `left` are the distances
before its head and before the head of the new row. -/
def distanceRow (a : UInt8) (corner left : Nat) : Bytes → List Nat → List Nat
  | b :: bs, up :: above =>
    let here := min (min (left + 1) (up + 1)) (corner + if a = b then 0 else 1)
    here :: distanceRow a up here bs above
  | _, _ => []

/-- The last row of the table of edit distances. `row` is the one for the first `i` characters of a
word, without its first entry. -/
def distanceRows (bs : Bytes) (i : Nat) (row : List Nat) : Bytes → List Nat
  | [] => row
  | a :: as => distanceRows bs (i + 1) (distanceRow a i (i + 1) bs row) as

/-- The number of insertions, deletions and exchanges that lead from one word to another. -/
def distance (a b : Bytes) : Nat :=
  ((distanceRows b 0 ((List.range b.length).map (· + 1)) a).getLast?).getD a.length

/-- The names close to a word: two changes away at most, or longer than the word. -/
def suggestions (word : Bytes) : List Bytes :=
  let word := LetterCase.toLower word
  suggested.filter fun name => distance word name ≤ 2 || Bytes.startsWith name word

end Command

end GetterRename
