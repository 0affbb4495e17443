import GetterRename.Settings.Convert
import GetterRename.Text.LetterCase
import GetterRename.Yaml.Decode
import GetterRename.Yaml.KeyOrder

/-!
# Configuration

The data of a configuration file.  Keys do not depend on case, and a key with dots stands for keys
below each other.

- `Config` : the entries of a configuration;
- `Config.ofText` : the configuration in a text, empty if the text has none;
- `Config.get?` : the value of a path of keys;
- `Config.paths` : the paths that have values;
- `Config.put`, `Config.toValue` : building a configuration and its data in order.
-/

namespace GetterRename

open Yaml

/-- The entries of a configuration, by texts in small letters. -/
abbrev Config := List (Scalar × Value)

namespace Config

/-! ## Reading -/

/-- The key of a configuration for a key of a map. -/
def foldKey (key : Scalar) : Scalar := .text (LetterCase.toLower (Convert.ofScalar key))

mutual

/-- The value of an entry with the keys of all maps below it in small letters. Lists stay as they
are. -/
def foldMap : Value → Value
  | .map entries => .map (foldEntries entries)
  | value => value

/-- The entries of a map with keys in small letters. -/
def foldEntries : List (Scalar × Value) → List (Scalar × Value)
  | [] => []
  | entry :: entries => foldEntry entry :: foldEntries entries

/-- An entry of a map with keys in small letters. -/
def foldEntry : Scalar × Value → Scalar × Value
  | (key, value) => (foldKey key, foldMap value)

end

mutual

/-- A value at the top of a configuration with keys in small letters, also in the items of lists. -/
def foldTop : Value → Value
  | .list items => .list (foldItems items)
  | value => foldMap value

/-- The items of a list at the top of a configuration with keys in small letters. -/
def foldItems : List Value → List Value
  | [] => []
  | item :: items => foldTop item :: foldItems items

end

/-- The configuration with keys in small letters. A key in other letters comes before the same key
in small letters. -/
def fold (entries : List (Scalar × Value)) : Config :=
  let (small, other) := entries.partition fun entry => foldKey entry.1 = entry.1
  (other ++ small).map fun (key, value) => (foldKey key, foldTop value)

/-- The configuration in a text. A text that holds none is ignored as a whole. -/
def ofText (text : Bytes) : Config :=
  ((Decode.run (Decode.entries "map") [] text).toOption.map fold).getD []

/-! ## Values -/

/-- The value of a key; none if it is missing or empty. -/
def lookup (key : Bytes) (config : Config) : Option Value :=
  match config.find? (·.1 = .text key) with
  | some (_, .scalar .null) => none
  | some (_, value) => some value
  | none => none

/-- The value behind the keys `done ++ rest`, where `done` is a part of one key with dots. Longer
keys win. -/
def getFrom (done : List Bytes) (rest : List Bytes) (config : Config) : Option Value :=
  match rest with
  | [] => lookup (Bytes.join "." done) config
  | key :: keys =>
    match getFrom (done ++ [key]) keys config with
    | some value => some value
    | none =>
      if _h : done = [] then none
      else
        match lookup (Bytes.join "." done) config with
        | some (.map inner) => getFrom [] (key :: keys) inner
        | _ => none
termination_by (done.length + rest.length, rest.length)
decreasing_by
  · simp only [List.length_append, List.length_cons, List.length_nil]
    apply Prod.Lex.right'
    · omega
    · omega
  · have : 0 < done.length := List.length_pos_iff.2 _h
    apply Prod.Lex.left
    simp only [List.length_nil, List.length_cons]
    omega

/-- The value behind a path of keys. -/
def get? (config : Config) (path : List Bytes) : Option Value := getFrom [] path config

/-- Whether a value that is no map stands where the path needs one. -/
def isShadowed (config : Config) (path : List Bytes) : Bool :=
  match path with
  | first :: _ :: _ =>
    match lookup first config with
    | some (.map _) => false
    | some _ => true
    | none => false
  | _ => false

mutual

/-- The keys with dots of the values below the key `above`, where an empty key needs no dot. Keys in
`known` hide what is below them. -/
def pathsBelow (known : List Bytes) (above : Bytes) : Value → List Bytes
  | .map entries =>
    if above.isEmpty then pathsOf known [] entries
    else if known.contains above then []
    else pathsOf known (above ++ [byte '.']) entries
  | _ => [above]

/-- The keys with dots of the values of entries, each behind `head`. -/
def pathsOf (known : List Bytes) (head : Bytes) : List (Scalar × Value) → List Bytes
  | [] => []
  | entry :: rest => pathsOfEntry known head entry ++ pathsOf known head rest

/-- The keys with dots of the values of one entry. -/
def pathsOfEntry (known : List Bytes) (head : Bytes) : Scalar × Value → List Bytes
  | (key, value) => pathsBelow known (head ++ Convert.ofScalar key) value

end

/-- The keys with dots of all values, without those below a key in `known`. -/
def paths (known : List Bytes) (config : Config) : List Bytes := pathsOf known [] config

/-- Sets the value of a path of keys. -/
def put (value : Value) (path : List Bytes) (config : Config) : Config :=
  match path with
  | [] => config
  | [key] => config.filter (·.1 != .text key) ++ [(.text key, value)]
  | key :: rest =>
    let inner :=
      match lookup key config with
      | some (.map entries) => entries
      | _ => []
    config.filter (·.1 != .text key) ++ [(.text key, .map (put value rest inner))]

/-- The configuration as data with its keys in order. -/
def toValue (config : Config) : Value := Value.sorted (.map config)

end Config

end GetterRename
