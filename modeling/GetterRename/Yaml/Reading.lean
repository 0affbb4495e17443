import GetterRename.Text.Quoted
import GetterRename.Yaml.Node.Build

/-!
# Reading nodes

What happens while the nodes of a document are read as values.  A node of the wrong kind is noted
and reading goes on, so that all such nodes are reported together; a reference that leads back to
itself, and a document that is little else than references, end it.

- `Yaml.Mismatch` : what is wrong with a node;
- `Yaml.DecodeError` : why a text is not decoded;
- `Reading` : reading with notes and counts;
- `Scope.enter` : a node, or the node that a reference stands for;
- `Absorber.map` : the entries of a map, and those of the maps that it merges.
-/

namespace GetterRename.Yaml

/-! ## Errors -/

/-- What is wrong with a node. -/
inductive Mismatch where
  /-- A node of a kind that is no value of the type. -/
  | kind (line : Nat) (tag text : Bytes) (type : String)
  /-- A key that the same map has on an earlier line. -/
  | repeatedKey (line : Nat) (key : Bytes) (first : Nat)
  /-- A key for a field that the same map sets by another key. -/
  | repeatedField (line : Nat) (field : Bytes) (type : String)
  deriving DecidableEq, Repr

namespace Mismatch

/-- A text as messages show it: a long one is cut. -/
def quoteShown (text : Bytes) : Bytes :=
  " `" ++ (if text.length > 10 then text.take 7 ++ "..." else text) ++ "`"

/-- The wording of what is wrong; the text of what is said to be a list or map has no quotes. -/
def message : Mismatch → Bytes
  | kind line tag text type =>
    let isPart := tag = Bytes.ofString "!!seq" || tag = Bytes.ofString "!!map"
    "line " ++ Bytes.ofNat line ++ ": cannot unmarshal " ++ tag
      ++ (if isPart then text else quoteShown text) ++ " into " ++ Bytes.ofString type
  | repeatedKey line key first =>
    "line " ++ Bytes.ofNat line ++ ": mapping key " ++ Quoted.string key
      ++ " already defined at line " ++ Bytes.ofNat first
  | repeatedField line field type =>
    "line " ++ Bytes.ofNat line ++ ": field " ++ field ++ " already set in type "
      ++ Bytes.ofString type

end Mismatch

/-- Why a text is not decoded. -/
inductive DecodeError where
  | document (error : Error)
  | mismatches (errors : List Mismatch)
  | refusal (cause : Scalar.Refusal)
  /-- A reference inside of what it stands for. -/
  | endless (name : Bytes)
  | tooManyReferences
  /-- A merged value that is no map. -/
  | badMerge
  /-- A list or map as a key. -/
  | badKey
  deriving DecidableEq, Repr

namespace DecodeError

/-- The wording of an error; every mismatch has its own line. -/
def message (e : DecodeError) : Bytes :=
  "yaml: " ++
    match e with
    | document e => e.message
    | mismatches es => "unmarshal errors:" ++ es.flatMap fun e => Bytes.ofString "\n  " ++ e.message
    | refusal cause => cause.message
    | endless name => "anchor '" ++ name ++ "' value contains itself"
    | tooManyReferences => "document contains excessive aliasing"
    | badMerge => "map merge requires map or sequence of maps as the value"
    | badKey => "invalid map key"

end DecodeError

/-! ## Progress -/

/-- How far reading is. -/
structure Progress where
  /-- The nodes read so far, the document included. -/
  nodes : Nat := 1
  /-- Those among them that were reached by references. -/
  referred : Nat := 0
  mismatches : List Mismatch := []
  deriving DecidableEq, Repr

namespace Progress

/-- Whether too many nodes are reached by references: more than 99 in 100 of up to 400000 nodes,
more than 10 in 100 from 4000000 on, and in between a share that falls evenly. -/
def isExcessive (p : Progress) : Bool :=
  let share :=
    if p.nodes ≤ 400000 then 99 * 3600000
    else if 4000000 ≤ p.nodes then 10 * 3600000
    else 99 * 3600000 - 89 * (p.nodes - 400000)
  p.referred > 100 && p.nodes > 1000 && p.referred * 360000000 > p.nodes * share

end Progress

/-- Reading with notes and counts. -/
abbrev Reading := StateT Progress (Except DecodeError)

namespace Reading

/-- Notes what is wrong. -/
def note (errors : List Mismatch) : Reading Unit :=
  modify fun p => { p with mismatches := p.mismatches ++ errors }

end Reading

/-- Where a node is read. -/
structure Scope where
  /-- The document. -/
  root : Node
  /-- The places of the references that lead to the node. -/
  entered : List Nat := []
  /-- A bound on the levels of nodes within each other. -/
  levels : Nat

namespace Scope

/-- Counts a node. -/
def visit (scope : Scope) : Reading Unit := do
  modify fun p => { p with
    nodes := p.nodes + 1
    referred := if scope.entered.isEmpty then p.referred else p.referred + 1 }
  if (← get).isExcessive then throw .tooManyReferences

/-- The node with the given number. -/
def target (scope : Scope) (line number : Nat) : Node :=
  (Node.anchored? number scope.root).getD (.missing line)

/-- The node itself, or the one that a reference stands for. -/
def resolve (scope : Scope) : Node → Node
  | .reference line _ number _ => scope.target line number
  | node => node

/-- Reads a node, or the node that a reference stands for. -/
def enter {α : Type} (scope : Scope) (node : Node) (read : Scope → Node → Reading α) :
    Reading α := do
  scope.visit
  match node with
  | .reference line name number place =>
    if scope.entered.contains place then throw (.endless name)
    else
      let inner := { scope with entered := place :: scope.entered }
      inner.visit
      read inner (scope.target line number)
  | node => read scope node

end Scope

/-- A way to read nodes: the value, unless there is none. -/
abbrev Decode (α : Type) := Scope → Node → Reading (Option α)

/-! ## Maps -/

namespace Node

/-- Whether two nodes are of one kind, and have the same text or refer to the same name. -/
def isLike : Node → Node → Bool
  | scalar _ text, scalar _ other => text = other
  | list .., list .. | map .., map .. => true
  | reference _ name _ _, reference _ other _ _ => name = other
  | _, _ => false

/-- The text of a scalar, or the name that a reference has. -/
def label : Node → Bytes
  | scalar _ text => text
  | reference _ name _ _ => name
  | _ => []

end Node

/-- The keys of a map that an earlier entry has too. -/
def repeatedKeys : List (Node × Node) → List Mismatch
  | [] => []
  | (key, _) :: rest =>
    (rest.filter fun entry => key.isLike entry.1).map (fun entry =>
      .repeatedKey entry.1.line entry.1.label key.line) ++ repeatedKeys rest

/-- The value of a scalar. -/
def scalarOf (info : Node.Info) (text : Bytes) : Reading Scalar :=
  match Scalar.ofTagged info.tag text with
  | .ok value => return value
  | .error cause => throw (.refusal cause)

/-- Any scalar; lists and maps have no value here. -/
def anyScalar : Decode Scalar := fun scope node => scope.enter node fun _ node =>
  match node with
  | .scalar info text => return some (← scalarOf info text)
  | _ => return none

/-- How the entries of maps are put together to a value. -/
structure Absorber (σ : Type) where
  /-- Reads a key; an entry whose key has no value is left out. -/
  key : Decode Scalar
  /-- Adds an entry, given whether the same map has the key already, and the node of the key. -/
  add : Scope → Bool → Node → Scalar → Node → σ → Reading σ

namespace Absorber

variable {σ : Type}

/-- Adds the entries of a map but those that merge other maps. The keys in `known`, if there are
such keys, hide entries and grow by every entry; `done` holds the keys of the map so far. -/
def own (a : Absorber σ) (scope : Scope) (known : Option (List Scalar)) (done : List Scalar)
    (state : σ) : List (Node × Node) → Reading (σ × Option (List Scalar))
  | [] => return (state, known)
  | (key, node) :: rest => do
    if key.isMerge then own a scope known done state rest
    else
      match ← a.key scope key with
      | none => own a scope known done state rest
      | some name =>
        if (known.getD []).contains name then own a scope known done state rest
        else
          let state ← a.add scope (done.contains name) key name node state
          own a scope (known.map (name :: ·)) (name :: done) state rest

/-- Whether a node may be merged into a map. -/
def isMap (scope : Scope) (node : Node) : Bool :=
  match scope.resolve node with
  | .map .. => true
  | _ => false

/-- The nodes that a merged value stands for: a map itself, or the items of a list. -/
def sources (scope : Scope) : Node → Option (List Node)
  | .list _ items => some items
  | node => if isMap scope node then some [node] else none

/-- Adds the entries of a map, and then those of the maps that it merges unless they are known. The
map is not read if it repeats a key. -/
def merge (a : Absorber σ) : Nat → Scope → Option (List Scalar) → σ → List (Node × Node) →
    Reading (σ × Option (List Scalar))
  | 0, _, known, state, _ => return (state, known)
  | level + 1, scope, known, state, entries => do
    let repeated := repeatedKeys entries
    if !repeated.isEmpty then
      Reading.note repeated
      return (state, known)
    let (state, known) ← a.own scope known [] state entries
    match entries.find? (·.1.isMerge) with
    | none => return (state, known)
    | some (_, value) =>
      let start ←
        match known with
        | some known => pure known
        | none => entries.filterMapM fun entry => anyScalar scope entry.1
      match sources scope value with
      | none => throw .badMerge
      | some nodes =>
        let (state, merged) ← nodes.foldlM (fun (state, merged) node => do
          if !isMap scope node then throw .badMerge
          scope.enter node fun scope node =>
            match node with
            | .map _ entries => merge a level scope merged state entries
            | _ => return (state, merged)) (state, some start)
        return (state, known.bind fun _ => merged)

/-- The value that the entries of a map make from a first one, unless a key is repeated. -/
def map (a : Absorber σ) (scope : Scope) (state : σ) (entries : List (Node × Node)) :
    Reading (Option σ) := do
  let (state, _) ← a.merge scope.levels scope none state entries
  return if (repeatedKeys entries).isEmpty then some state else none

end Absorber

end GetterRename.Yaml
