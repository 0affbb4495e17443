import GetterRename.Yaml.Reading
import GetterRename.Yaml.Value

/-!
# Decoding

Documents as values of other types.  A missing value leaves the default.

- `Decode.int`, `Decode.bool`, `Decode.text`, `Decode.list`, `Decode.record` : numbers, truth
  values, texts, lists and records;
- `Decode.value`, `Decode.entries` : any data, and maps of any data;
- `Decode.run` : decoding a text.
-/

namespace GetterRename.Yaml

namespace Decode

/-! ## Scalars -/

/-- Notes that a node is no value of the type. -/
def mismatch (type : String) (node : Node) : Reading Unit :=
  match node with
  | .scalar info text => Reading.note [.kind info.line info.tag text type]
  | .list info _ => Reading.note [.kind info.line info.tag [] type]
  | .map info entries =>
    let repeated := repeatedKeys entries
    Reading.note (if repeated.isEmpty then [.kind info.line info.tag [] type] else repeated)
  | .reference .. => return ()

/-- Reads a scalar by `read?` from its tag, its text and its value, where `none` is no value of the
type; `null` is the value of an empty one. -/
def ofScalar {α : Type} (type : String) (null : Option α)
    (read? : Bytes → Bytes → Scalar → Option α) (node : Node) : Reading (Option α) := do
  if let .scalar info text := node then
    let value ← scalarOf info text
    if value = .null then return null
    if let some a := read? info.tag text value then return some a
  mismatch type node
  return none

/-- Reads scalars by `read?`. -/
def scalar {α : Type} (type : String) (read? : Bytes → Bytes → Scalar → Option α) : Decode α :=
  fun scope node => scope.enter node fun _ node => ofScalar type none read? node

/-- Any scalar as it is written; binary data as it is meant. -/
def text (type : String) : Decode Bytes := scalar type fun tag written value =>
  match value with
  | .text data => some (if tag = Bytes.ofString "!!binary" then data else written)
  | _ => some written

/-- The integer that a number stands for, without its fraction, if it fits 64 bits. -/
def integer? : Scalar → Option Int
  | .int n => if n < Numeral.limit then some n else none
  | .float x =>
    let bound := Double.ofInt Numeral.limit
    if x.less bound || x.equal bound then some x.truncate else none
  | _ => none

/-- A number. -/
def int : Decode Int := scalar "int" fun _ _ value => integer? value

/-- The truth value of a scalar, words of older rules included. -/
def truth? : Scalar → Option Bool
  | .bool b => some b
  | .text word =>
    if ["y", "Y", "yes", "on"].any (Bytes.ofString · = word) then some true
    else if ["n", "N", "no", "off"].any (Bytes.ofString · = word) then some false
    else none
  | _ => none

/-- A truth value. -/
def bool : Decode Bool := scalar "bool" fun _ _ value => truth? value

/-! ## Lists and records -/

/-- A list; an item without value is left out. -/
def list {α : Type} (type : String) (item : Decode α) : Decode (List α) := fun scope node =>
  scope.enter node fun scope node =>
    match node with
    | .list _ items => do return some (← items.filterMapM (item scope))
    | node => ofScalar type (some []) (fun _ _ _ => none) node

/-- A field of a record: its key, and how a node changes the record. -/
structure Field (α : Type) where
  key : String
  set : Scope → Node → α → Reading α

/-- The field `key` that is read by `decode` and set by `set`. -/
def Field.of {α β : Type} (key : String) (decode : Decode β) (set : β → α → α) : Field α :=
  ⟨key, fun scope node a => do
    match ← decode scope node with
    | some value => return set value a
    | none => return a⟩

/-- A key that is a text. -/
def textKey : Decode Scalar := fun scope node => do return (← text "string" scope node).map .text

/-- Puts the fields of a record together; other keys are ignored. -/
def fieldAbsorber {α : Type} (type : String) (fields : List (Field α)) : Absorber α where
  key := textKey
  add scope isRepeated key name node a := do
    match fields.find? fun f => .text (Bytes.ofString f.key) = name with
    | none => return a
    | some field =>
      if isRepeated then
        Reading.note [.repeatedField key.line (Bytes.ofString field.key) type]
        return a
      else field.set scope node a

/-- A record that starts from a default. -/
def record {α : Type} (type : String) (default : α) (fields : List (Field α)) : Decode α :=
  fun scope node => scope.enter node fun scope node =>
    match node with
    | .map _ entries => (fieldAbsorber type fields).map scope default entries
    | node => ofScalar type none (fun _ _ _ => none) node

/-! ## Any data -/

/-- A key that is any scalar. -/
def scalarKey : Decode Scalar := fun scope node => do
  match ← anyScalar scope node with
  | some key => return some key
  | none => throw .badKey

/-- Whether two keys are the same key of a map. -/
def isSameKey : Scalar → Scalar → Bool
  | .float x, .float y => x.equal y
  | a, b => a = b

/-- Puts the entries of a map together; of the same keys the last one counts. -/
def entryAbsorber (key : Decode Scalar) (value : Decode Value) :
    Absorber (List (Scalar × Value)) where
  key := key
  add scope _ _ name node entries := do
    match ← value scope node with
    | some value => return entries.filter (!isSameKey ·.1 name) ++ [(name, value)]
    | none => return entries

/-- Whether all keys of a map are texts by their tags. -/
def hasTextKeys (scope : Scope) (entries : List (Node × Node)) : Bool :=
  entries.all fun (key, _) =>
    match scope.resolve key with
    | .scalar info _ | .list info _ | .map info _ =>
      info.tag = Bytes.ofString "!!str" || info.tag = Bytes.ofString "!!merge"
    | .reference .. => false

/-- Any data with at most the given number of levels. -/
def valueWithin : Nat → Decode Value
  | 0 => fun _ _ => return none
  | level + 1 => fun scope node => scope.enter node fun scope node =>
    match node with
    | .scalar info text => do return some (.scalar (← scalarOf info text))
    | .list _ items => do return some (.list (← items.filterMapM (valueWithin level scope)))
    | .map _ entries => do
      let key := if hasTextKeys scope entries then textKey else scalarKey
      return (← (entryAbsorber key (valueWithin level)).map scope [] entries).map .map
    | .reference .. => return none

/-- Any data. -/
def value : Decode Value := fun scope node => valueWithin scope.levels scope node

/-- The entries of a map with texts as keys. -/
def entries (type : String) : Decode (List (Scalar × Value)) := fun scope node =>
  scope.enter node fun scope node =>
    match node with
    | .map _ nodes => (entryAbsorber textKey value).map scope [] nodes
    | node => ofScalar type (some []) (fun _ _ _ => none) node

/-! ## Texts -/

/-- The value of a text, or a default if it holds none. Every level of nodes needs a byte of the
text, and so does every reference, behind which the levels may start again. -/
def run {α : Type} (decode : Decode α) (default : α) (text : Bytes) : Except DecodeError α :=
  match Node.ofText text with
  | .error e => .error (.document e)
  | .ok none => .ok default
  | .ok (some root) =>
    let levels := (text.length + 1) * (text.length + 1)
    match (decode { root, levels } root).run {} with
    | .error e => .error e
    | .ok (value, progress) =>
      if progress.mismatches.isEmpty then .ok (value.getD default)
      else .error (.mismatches progress.mismatches)

end Decode

end GetterRename.Yaml
