import GetterRename.Command.Usage
import GetterRename.File.Glob.Search
import GetterRename.Report.Display
import GetterRename.Run.Fix

/-!
# Command lines

What a command line does: the output, the log, the files behind it and the exit code.

- `Host` : what the program finds around it;
- `Outcome` : what it leaves;
- `CommandError` : why it fails;
- `Command.execute` : a command line as a whole.
-/

namespace GetterRename

/-- The exclude patterns of the command line. -/
instance : Globs := ⟨Glob.isValid, Glob.isMatch⟩

/-- What the program finds around it besides the files. -/
structure Host where
  /-- The variables of the environment. -/
  env : List (Bytes × Bytes) := []
  /-- The version of the tools that built the program. -/
  toolchain : Bytes := []

/-- What a command line leaves. -/
structure Outcome where
  exit : Nat := 0
  stdout : Bytes := []
  stderr : Bytes := []
  /-- The records at or above the chosen level. -/
  logs : List LogRecord := []
  /-- Where the records go. -/
  logFile : Bytes := []
  tree : FileTree

/-- Why a command line fails. -/
inductive CommandError where
  | unknownCommand (word : Bytes) (suggestions : List Bytes)
  | flag (error : FlagError)
  | tooManyArgs (limit received : Nat)
  | wrongArgs (wanted received : Nat)
  | unknownTool (word : Bytes)
  | negativeParallel (n : Int)
  | configExists (path : Bytes)
  | configUnwritable (cause : IOFailure)
  | run (failures : List Failure)
  deriving DecidableEq, Repr

namespace CommandError

/-- The wording of an error. -/
def message : CommandError → Bytes
  | unknownCommand word suggestions =>
    let hint :=
      if suggestions.isEmpty then []
      else Bytes.ofString "\n\nDid you mean this?\n"
        ++ suggestions.flatMap fun s => byte '\t' :: s ++ [byte '\n']
    "unknown command " ++ Quoted.string word ++ " for " ++ Quoted.string programName ++ hint
  | flag e => e.message
  | tooManyArgs limit received =>
    "accepts at most " ++ Bytes.ofNat limit ++ " arg(s), received " ++ Bytes.ofNat received
  | wrongArgs wanted received =>
    "accepts " ++ Bytes.ofNat wanted ++ " arg(s), received " ++ Bytes.ofNat received
  | unknownTool word =>
    "unknown --tool " ++ Quoted.string word ++ ": expected definitions or calls"
  | negativeParallel n => "invalid --parallel " ++ Bytes.ofInt n ++ ": must not be negative"
  | configExists path =>
    "failed to write config file: Config File " ++ Quoted.string path ++ " Already Exists"
  | configUnwritable cause => "failed to write config file: " ++ cause.message
  | run failures => Failure.messages failures

end CommandError

namespace Command

/-- The name of the configuration file. -/
def configFile : Bytes := "fixgetters.yaml"

/-- The configuration of the current directory; one that cannot be read is empty. -/
def config (t : FileTree) : Config :=
  match t.read configFile with
  | .ok text => .ofText text
  | .error _ => []

/-- Checks the number of arguments. -/
def checkArgs (command : Command) (args : List Bytes) : Except CommandError Unit :=
  let atMost (limit : Nat) :=
    if limit < args.length then .error (.tooManyArgs limit args.length) else .ok ()
  match command with
  | calls | defs => atMost 2
  | list | init => atMost 1
  | view => if args.length = 1 then .ok () else .error (.wrongArgs 1 args.length)
  | root | version | help => .ok ()

/-- Whether an error of the command is followed by its usage. -/
def showsUsage : Command → Bool
  | root | init | version | help => true
  | calls | defs | list | view => false

/-! ## Log -/

/-- The number that records need to be kept. -/
def threshold (settings : Settings) (p : Flag.Parsed) : Int :=
  if p.isOn .verbose || Convert.bool (settings.get? .logVerbose) then Log.Level.debug.number
  else if p.isOn .quiet then Log.Level.error.number
  else (Log.threshold? (Convert.text (settings.get? .logLevel))).getD Log.Level.info.number

/-- Where the log goes; a blank name counts as none. -/
def logFile (settings : Settings) (p : Flag.Parsed) : Bytes :=
  let names := [(p.last? .logFile).getD [], Convert.text (settings.get? .logFile)]
  (names.find? fun name => !(Blank.trim name).isEmpty).getD (Bytes.ofString Setting.defaultLogFile)

/-- Whether the log has room: its size in bytes must fit 64 bits. Without a size it has room. -/
def hasLogRoom (settings : Settings) : Bool :=
  let size := Convert.int (settings.get? .logMaxSize)
  size = 0 || 0 < (size * 0x100000).bmod Numeral.wordLimit

/-! ## Runs -/

/-- Whether definitions get aliases: a flag wins over the settings. -/
def docAlias (settings : Settings) (command : Command) (p : Flag.Parsed) : DocAlias :=
  let isWanted :=
    if command = defs && p.has .noDocAliases then !p.isOn .noDocAliases
    else Convert.bool (settings.get? .docAliases)
  if isWanted then .generate else .discard

/-- What a run is asked to do. -/
def runArgs (settings : Settings) (command : Command) (p : Flag.Parsed) (tool : Tool)
    (dryRun : Bool) : Except CommandError Run.Args :=
  let parallel := Convert.int (settings.get? .parallel)
  if parallel < 0 then .error (.negativeParallel parallel)
  else
    .ok {
      path := p.args.headD "."
      output := (p.args.drop 1).headD []
      exclude := Convert.texts (settings.get? .exclude)
      tool
      mode := if Convert.bool (settings.get? .conservative) then .conservative else .allGetFunctions
      docAlias := docAlias settings command p
      dryRun
      report := Convert.text (settings.get? .report) }

/-- A command while it works: the output so far, the log and the files, and the error at the end. -/
structure Effect where
  stdout : Bytes := []
  stderr : Bytes := []
  logs : List LogRecord := []
  tree : FileTree
  error : Option CommandError := none

/-- Runs and shows what `shown` makes of the summary, then the summary itself. -/
def runFix (t : FileTree) (args : Run.Args) (shown : Summary → Bytes) : Effect :=
  let result := Run.fix t args
  let errors := if result.failures.isEmpty then none else some (Failure.messages result.failures)
  { stdout := shown result.summary ++ result.summary.text errors
    logs := result.logs
    tree := result.tree
    error := if result.failures.isEmpty then none else some (.run result.failures) }

/-- The renames that a word asks for. -/
def tool? (word : Bytes) : Option Tool :=
  if word = Bytes.ofString Tool.definitions.name || word = Bytes.ofString "defs" then
    some .definitions
  else if word = Bytes.ofString Tool.calls.name then some .calls
  else none

/-- Lists what a run would rename. -/
def runList (settings : Settings) (t : FileTree) (p : Flag.Parsed) : Effect :=
  let word := (p.last? .tool).getD (Bytes.ofString Tool.definitions.name)
  match tool? word with
  | none => { tree := t, error := some (.unknownTool word) }
  | some tool =>
    match runArgs settings list p tool true with
    | .error e => { tree := t, error := some e }
    | .ok args => runFix t args Summary.renamesText

/-- Runs a tool on files; a dry run shows the differences. -/
def runTool (settings : Settings) (t : FileTree) (command : Command) (p : Flag.Parsed)
    (tool : Tool) : Effect :=
  let dryRun := p.isOn .diff
  match runArgs settings command p tool dryRun with
  | .error e => { tree := t, error := some e }
  | .ok args => runFix t args fun s => if dryRun then s.diffsText else []

/-- Writes a configuration file with all settings. -/
def runInit (settings : Settings) (t : FileTree) (p : Flag.Parsed) : Effect :=
  let path := Path.join [p.args.headD ".", configFile]
  match t.entry path with
  | .ok _ => { tree := t, error := some (.configExists path) }
  | .error _ =>
    match t.write path settings.document {} with
    | .ok t => { tree := t, stderr := "wrote " ++ path ++ "\n" }
    | .error e => { tree := t, error := some (.configUnwritable e) }

/-- Shows a report. -/
def runView (t : FileTree) (p : Flag.Parsed) : Effect :=
  match t.loadReport (p.args.headD []) with
  | .ok s => { tree := t, stdout := s.renamesText ++ s.text none }
  | .error e => { tree := t, error := some (.run [e]) }

/-- The lines about the version. -/
def versionText (host : Host) : Bytes :=
  Bytes.ofString programName ++ " version\t (devel)\ngo version\t " ++ host.toolchain ++ "\n"

/-- A word as a help topic shows it. -/
def topic (word : Bytes) : Bytes :=
  let isPlain (b : UInt8) := b != byte '`' && b != 0x7F && (0x20 ≤ b || b == byte '\t')
  let hasMark := Bytes.hasPart (Utf8.encode 0xFEFF) word
  if word.all isPlain && Utf8.isValid word && !hasMark then byte '`' :: word ++ [byte '`']
  else Quoted.string word

/-- Shows the help of the command that the arguments name. -/
def runHelp (settings : Settings) (t : FileTree) (p : Flag.Parsed) : Effect :=
  match find p.args with
  | .ok (command, _) => { tree := t, stdout := command.helpText settings }
  | .error _ =>
    { tree := t
      stderr := "Unknown help topic [" ++ Bytes.join " " (p.args.map topic) ++ "]\n"
        ++ rootUsage settings Flag.shared }

/-- What a command does with its arguments. -/
def effect (host : Host) (settings : Settings) (t : FileTree) (command : Command)
    (p : Flag.Parsed) : Effect :=
  match command with
  | root => { tree := t, stdout := root.helpText settings }
  | calls => runTool settings t calls p .calls
  | defs => runTool settings t defs p .definitions
  | list => runList settings t p
  | init => runInit settings t p
  | version => { tree := t, stderr := versionText host }
  | view => runView t p
  | help => runHelp settings t p

/-! ## Command lines -/

/-- The outcome of an error: its wording, and the usage of the command where it is shown. -/
def failed (settings : Settings) (t : FileTree) (command : Command) (e : CommandError) : Outcome :=
  let usage := if command.showsUsage then command.usage settings ++ "\n" else []
  { exit := 1, stderr := "Error: " ++ e.message ++ "\n" ++ usage, tree := t }

/-- The outcome of a command with the words left for it. Where the log cannot be written it is
lost. -/
def outcome (host : Host) (t : FileTree) (command : Command) (words : List Bytes) : Outcome :=
  let settings : Settings := { env := host.env, config := config t }
  match Flag.parse (command.flags ++ Flag.shared) words with
  | .error e => failed settings t command (.flag e)
  | .ok p =>
    if p.isOn .help then { tree := t, stdout := command.helpText settings }
    else
      match command.checkArgs p.args with
      | .error e => failed settings t command e
      | .ok () =>
        let settings := { settings with given := p.settings }
        let e := effect host settings t command p
        let ending : Outcome :=
          match e.error with
          | some error => failed settings e.tree command error
          | none => { tree := e.tree }
        let file := logFile settings p
        let kept := e.logs.filter fun r => threshold settings p ≤ r.level.number
        { ending with
          stdout := e.stdout
          stderr := e.stderr ++ ending.stderr
          logs := if hasLogRoom settings && (t.save file []).isOk then kept else []
          logFile := file }

/-- The outcome of a command line. -/
def execute (host : Host) (t : FileTree) (words : List Bytes) : Outcome :=
  match find words with
  | .ok (command, words) => outcome host t command words
  | .error word =>
    let error := CommandError.unknownCommand word (suggestions word)
    { exit := 1
      stderr := "Error: " ++ error.message ++ Bytes.ofString ("\nRun '" ++ programName ++
        " --help' for usage.\n")
      tree := t }

end Command

end GetterRename
