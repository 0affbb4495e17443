import GetterRename.Command.Name
import GetterRename.Getter.Scope

/-!
# Help

What the commands say about themselves: a description, the forms of the command line, and the flags
with their defaults, which depend on the environment and the configuration.

- `Command.long` : the description of a command;
- `Command.usage` : the forms and the flags;
- `Command.helpText` : all of it.
-/

namespace GetterRename

/-! ## Flags -/

namespace Flag

/-- What a flag is for. -/
def purpose (command : Command) : Flag → String
  | exclude => "exclude paths matching glob, relative to PATH (can be repeated)"
  | parallel => "number of files processed in parallel (0: no limit)"
  | conservative => "only rename methods taking no argument besides self, and bool getters"
  | report => "write a YAML report of the renames to this file"
  | verbose => "log at debug level"
  | quiet => "only log errors"
  | logFile => "log file (default " ++ Setting.defaultLogFile ++ ")"
  | help => "help for " ++ command.name
  | diff => "print a unified diff instead of writing the files"
  | noDocAliases => "don't add doc alias attributes to renamed definitions"
  | tool => "renames to list: definitions or calls"

/-- The word for what a flag takes. -/
def Kind.word : Kind → String
  | switch => ""
  | number => " int"
  | text => " string"
  | texts => " stringArray"

/-- A member of a list: in quotes if it has a separator, a quote or a line break, or starts with a
blank. -/
def listMember (text : Bytes) : Bytes :=
  let isSpecial (b : UInt8) := [byte ',', byte '"', byte '\r', byte '\n'].contains b
  if text.any isSpecial || 0 < Blank.headSize Blank.encodings text || text = Bytes.ofString "\\." then
    byte '"' :: (text.flatMap fun b => if b == byte '"' then [b, b] else [b]) ++ [byte '"']
  else text

/-- The value that a flag has if it is not given, unless it is false, zero or empty. -/
def shownDefault? (settings : Settings) : Flag → Option Bytes
  | conservative =>
    if Convert.bool (settings.fallback? .conservative) then some (Bytes.ofString "true") else none
  | parallel =>
    let n := Convert.int (settings.fallback? .parallel)
    if n = 0 then none else some (Bytes.ofInt n)
  | report =>
    let path := Convert.text (settings.fallback? .report)
    if path.isEmpty then none else some (Quoted.string path)
  | exclude =>
    let members := Bytes.join "," ((Convert.texts (settings.fallback? .exclude)).map listMember)
    if members.isEmpty then none else some (byte '[' :: members ++ [byte ']'])
  | tool => some (Quoted.string Tool.definitions.name)
  | verbose | quiet | logFile | help | diff | noDocAliases => none

/-- The names of a flag in a list of flags. -/
def listed (f : Flag) : Bytes :=
  let short :=
    match f.short? with
    | some c => "  -" ++ String.singleton c ++ ", "
    | none => "      "
  Bytes.ofString (short ++ "--" ++ f.name ++ f.kind.word)

/-- A list of flags, what they are for in a column behind the longest name. Further lines of a
default stay in that column. -/
def list (settings : Settings) (command : Command) (flags : List Flag) : Bytes :=
  let column := (flags.map fun f => f.listed.length).foldl max 0 + 3
  let blanks (n : Nat) := List.replicate n (byte ' ')
  Bytes.join "\n" (flags.map fun f =>
    let default := (f.shownDefault? settings).map fun d => Bytes.ofString " (default " ++ d ++ ")"
    f.listed ++ blanks (column - f.listed.length) ++ Bytes.ofString (f.purpose command)
      ++ (default.getD []).flatMap fun b => if b == byte '\n' then b :: blanks column else [b])

end Flag

/-! ## Commands -/

namespace Command

/-- What every command that works on files says about its arguments. -/
def pathHelp : String :=
  "PATH is a crate directory or a single Rust file (default: current directory).\n" ++
  "When OUTPUT is given, the fixed files are written there, replicating the\n" ++
  "tree of PATH, instead of overwriting the input. Both must exist.\n\n" ++
  "Directories named .git, auto, ci, docs, gir, gir-files, sys and target\nare skipped."

/-- The description of a command. -/
def long : Command → String
  | root =>
    "fixgetters renames Rust getter functions to follow the API naming\n" ++
    "guidelines: the get_ prefix is removed, except where the result would not\n" ++
    "be a valid identifier, and functions returning a bool get an is_ prefix.\n\n" ++
    "Use \"defs\" to rename the definitions and \"calls\" to rename the call sites.\n\n" ++ pathHelp
  | calls => "Rename getter calls in the given crate or file.\n\n" ++ pathHelp
  | defs =>
    "Rename getter definitions in the given crate or file.\n\n" ++
    "Definitions in inherent impls, traits and macros get a\n" ++
    "#[doc(alias = \"get_...\")] attribute so the documentation can still be\n" ++
    "searched with the former name. Trait implementations never get one.\n" ++
    "Use --no-doc-aliases to skip them.\n\n" ++ pathHelp
  | list =>
    "List the renames that \"calls\" or \"defs\" would apply, without\nwriting any file.\n\n"
      ++ pathHelp
  | init =>
    "Create a fixgetters.yaml populated with the current defaults so it can be\n" ++
    "edited manually. The file is written in DIR, the current directory by default.\n" ++
    "An existing file is never overwritten."
  | version => "Displays the build version, VCS revision and Go version used to build fixgetters."
  | view =>
    "View a report written with --report: the renames of each changed file\n" ++
    "followed by the summary table."
  | help =>
    "Help provides help for any command in the application.\n" ++
    "Simply type fixgetters help [path to command] for full details."

/-- The arguments of a command. -/
def form : Command → String
  | root => ""
  | calls => " calls [PATH] [OUTPUT]"
  | defs => " defs [PATH] [OUTPUT]"
  | init => " init [DIR]"
  | list => " list [PATH]"
  | version => " version"
  | view => " view REPORT"
  | help => " help [command]"

/-- The commands with what they do. -/
def overview : String :=
  "\n\nAvailable Commands:\n" ++
  "  calls       Rename getter calls\n" ++
  "  completion  Generate the autocompletion script for the specified shell\n" ++
  "  defs        Rename getter definitions\n" ++
  "  help        Help about any command\n" ++
  "  init        Generate a default fixgetters.yaml configuration file\n" ++
  "  list        List the getters which would be renamed\n" ++
  "  version     Show the version information\n" ++
  "  view        View a previously written rename report"

/-- The flags of the program without a command, in the order of their names. -/
def rootFlags : List Flag :=
  [.conservative, .exclude, .help, .logFile, .parallel, .quiet, .report, .verbose]

/-- The usage of the program without a command, with the given flags. -/
def rootUsage (settings : Settings) (flags : List Flag) : Bytes :=
  Bytes.ofString ("Usage:\n  " ++ programName ++ " [flags]\n  " ++ programName ++ " [command]" ++
      overview ++ "\n\nFlags:\n")
    ++ Flag.list settings root flags
    ++ Bytes.ofString ("\n\nUse \"" ++ programName ++
      " [command] --help\" for more information about a command.\n")

/-- The forms of the command line and the flags. -/
def usage (settings : Settings) (command : Command) : Bytes :=
  if command = root then rootUsage settings rootFlags
  else
    Bytes.ofString ("Usage:\n  " ++ programName ++ command.form ++ " [flags]\n\nFlags:\n")
      ++ Flag.list settings command command.flags
      ++ "\n\nGlobal Flags:\n" ++ Flag.list settings command Flag.shared ++ "\n"

/-- The description and the usage of a command. -/
def helpText (settings : Settings) (command : Command) : Bytes :=
  Bytes.ofString (command.long ++ "\n\n") ++ command.usage settings

end Command

end GetterRename
