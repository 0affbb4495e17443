import GetterRename.Settings.Config
import GetterRename.Settings.Convert

/-!
# Settings

What a run may be told beside its arguments.  A setting given as a flag wins over the environment,
that over the configuration file, and that over the default.

- `Setting` : the settings, with their keys and defaults;
- `Settings` : where their values come from;
- `Settings.get?` : the value of a setting;
- `Settings.document` : all settings as the text of a configuration file.
-/

namespace GetterRename

open Yaml

/-- The settings. -/
inductive Setting where
  | version
  | exclude
  | parallel
  | conservative
  | docAliases
  | report
  | logFile
  | logLevel
  | logVerbose
  | logMaxSize
  | logMaxBackups
  | logMaxAge
  | logCompress
  deriving DecidableEq, Repr

namespace Setting

/-- All settings. -/
def all : List Setting :=
  [version, exclude, parallel, conservative, docAliases, report, logFile, logLevel, logVerbose,
    logMaxSize, logMaxBackups, logMaxAge, logCompress]

/-- The keys that lead to a setting, with dots between them. -/
def key : Setting → String
  | version => "version"
  | exclude => "paths.exclude"
  | parallel => "run.parallel"
  | conservative => "fix.conservative"
  | docAliases => "fix.doc_aliases"
  | report => "report.path"
  | logFile => "log.filename"
  | logLevel => "log.level"
  | logVerbose => "log.verbose"
  | logMaxSize => "log.max_size"
  | logMaxBackups => "log.max_backups"
  | logMaxAge => "log.max_age"
  | logCompress => "log.compress"

/-- The name of the log file if nothing else is said. -/
def defaultLogFile : String := ".fixgetters.log"

/-- The value of a setting if nothing else is said. -/
def default : Setting → Value
  | version => .int 1
  | exclude => .list []
  | parallel => .int 1
  | conservative => .bool false
  | docAliases => .bool true
  | report => .text []
  | logFile => .text defaultLogFile
  | logLevel => .text "info"
  | logVerbose => .bool false
  | logMaxSize => .int 10
  | logMaxBackups => .int 3
  | logMaxAge => .int 28
  | logCompress => .bool true

/-- The settings that a flag can give. -/
def flagged : List Setting := [exclude, parallel, conservative, report]

/-- The keys of a path that is written with dots. -/
def splitKey (key : Bytes) : List Bytes := Bytes.splitOn (byte '.') key

/-- The defaults as a configuration. -/
def defaults : Config :=
  all.foldl (fun config s => config.put s.default (splitKey s.key)) []

end Setting

/-- Where the values of settings come from. -/
structure Settings where
  /-- The settings given as flags. -/
  given : List (Setting × Value) := []
  /-- The variables of the environment. -/
  env : List (Bytes × Bytes) := []
  /-- The configuration file. -/
  config : Config := []

namespace Settings

/-- The name of the variable for a key. -/
def envName (key : Bytes) : Bytes :=
  "FIXGETTERS_" ++ (LetterCase.toUpper key).map fun b =>
    if b == byte '.' || b == byte '-' then byte '_' else b

/-- The value of the variable for a key; an empty one counts as unset. -/
def ofEnv? (s : Settings) (key : Bytes) : Option Bytes :=
  match s.env.find? (·.1 = envName key) with
  | some (_, value) => if value.isEmpty then none else some value
  | none => none

/-- The paths above a path, with dots between the keys. -/
def above (path : List Bytes) : List Bytes :=
  (List.range (path.length - 1)).map fun n => Bytes.join "." (path.take (n + 1))

/-- Whether a flag could give a setting above the path, which hides what is below that setting. -/
def isBelowFlag (path : List Bytes) : Bool :=
  (above path).any fun key => Setting.flagged.any fun setting => Bytes.ofString setting.key = key

/-- Whether a variable for a path above the given one hides what is below. -/
def isHidden (s : Settings) (path : List Bytes) : Bool :=
  (above path).any fun key => (s.ofEnv? key).isSome

/-- The value of a path of keys from the environment, the configuration or the defaults. -/
def inherited? (s : Settings) (path : List Bytes) : Option Value :=
  if isBelowFlag path then none
  else
    match s.ofEnv? (Bytes.join "." path) with
    | some value => some (.text value)
    | none =>
      if s.isHidden path then none
      else
        match s.config.get? path with
        | some value => some value
        | none => if s.config.isShadowed path then none else Setting.defaults.get? path

/-- The value of a path of keys. -/
def value? (s : Settings) (path : List Bytes) : Option Value :=
  match s.given.find? fun (setting, _) => Setting.splitKey setting.key = path with
  | some (_, value) => some value
  | none => s.inherited? path

/-- The value of a setting. -/
def get? (s : Settings) (setting : Setting) : Option Value :=
  s.value? (Setting.splitKey setting.key)

/-- The value that a setting has without flags. -/
def fallback? (s : Settings) (setting : Setting) : Option Value :=
  s.inherited? (Setting.splitKey setting.key)

/-- The keys that have values: those that flags can give, those of the configuration, and those of
the defaults that are not hidden. -/
def keys (s : Settings) : List Bytes :=
  let flagged := Setting.flagged.map fun setting => Bytes.ofString setting.key
  let known := flagged ++ s.config.paths flagged
  (known ++ Setting.defaults.paths known).eraseDups

/-- All settings with their values as one configuration. -/
def merged (s : Settings) : Config :=
  s.keys.foldl (fun config key =>
    match s.value? (Setting.splitKey key) with
    | some value => config.put value (Setting.splitKey key)
    | none => config) []

/-- All settings as the text of a configuration file. -/
def document (s : Settings) : Bytes := s.merged.toValue.render

end Settings

end GetterRename
