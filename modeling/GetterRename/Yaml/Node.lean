import GetterRename.Yaml.Scalar

/-!
# Nodes of documents

A document as scalars, lists and maps with the lines on which they start, and references to other
nodes of the document.

- `Yaml.Node` : the parts of a document;
- `Node.anchored?` : the node that a reference stands for;
- `Node.isMerge` : the key of an entry that brings in the entries of other maps.
-/

namespace GetterRename.Yaml

/-- What every node but a reference has. -/
structure Node.Info where
  /-- The line on which the node starts, counted from one. -/
  line : Nat
  /-- The name of its kind. -/
  tag : Bytes
  /-- The number by which references find the node. -/
  anchor : Option Nat := none
  deriving DecidableEq, Repr

/-- The parts of a document. -/
inductive Node where
  | scalar (info : Node.Info) (text : Bytes)
  | list (info : Node.Info) (items : List Node)
  | map (info : Node.Info) (entries : List (Node × Node))
  /-- A reference to the node with the number `target`. No two have the same `place`. -/
  | reference (line : Nat) (name : Bytes) (target place : Nat)

namespace Node

/-- The line on which the node starts. -/
def line : Node → Nat
  | scalar info _ | list info _ | map info _ => info.line
  | reference line .. => line

/-- The tag of a scalar that has none of its own: what its text means without quotes, or text. -/
def defaultTag (isPlain : Bool) (text : Bytes) : Bytes :=
  if !isPlain then "!!str"
  else if text = Bytes.ofString "<<" then "!!merge"
  else (Scalar.ofPlain text).tag

/-- The node that stands for a missing value. -/
def missing (line : Nat) : Node := scalar { line, tag := defaultTag true [] } []

/-- Whether the node is the key of an entry that brings in the entries of other maps. -/
def isMerge : Node → Bool
  | scalar info text => text = Bytes.ofString "<<" && info.tag = Bytes.ofString "!!merge"
  | _ => false

mutual

/-- The node with the given number among a node and all below it. -/
def anchored? (number : Nat) : Node → Option Node
  | scalar info text => if info.anchor = some number then some (scalar info text) else none
  | list info items =>
    if info.anchor = some number then some (list info items) else anchoredInItems? number items
  | map info entries =>
    if info.anchor = some number then some (map info entries) else anchoredInEntries? number entries
  | reference .. => none

/-- The node with the given number among the items of a list. -/
def anchoredInItems? (number : Nat) : List Node → Option Node
  | [] => none
  | item :: items => (anchored? number item).or (anchoredInItems? number items)

/-- The node with the given number among the entries of a map. -/
def anchoredInEntries? (number : Nat) : List (Node × Node) → Option Node
  | [] => none
  | entry :: entries => (anchoredInPair? number entry).or (anchoredInEntries? number entries)

/-- The node with the given number in one entry. -/
def anchoredInPair? (number : Nat) : Node × Node → Option Node
  | (key, value) => (anchored? number key).or (anchored? number value)

end

end Node

end GetterRename.Yaml
