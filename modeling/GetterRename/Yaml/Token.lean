import GetterRename.Text.Bytes

/-!
# Tokens of documents

What a document is made of, in order: scalars, the marks of lists and maps, what is said about
nodes, and the marks of documents.  The start of a list or map outside of brackets, its end, and the
mark of a key that is not written are tokens too.
-/

namespace GetterRename.Yaml

/-- What a token is. -/
inductive Token.Kind where
  | streamEnd
  /-- The version of the rules that a document asks for. -/
  | version (major minor : Nat)
  /-- A short form for the start of tags. -/
  | handle (name expansion : Bytes)
  | documentStart
  | documentEnd
  | blockListStart
  | blockMapStart
  | blockEnd
  | flowListStart
  | flowListEnd
  | flowMapStart
  | flowMapEnd
  | dash
  | comma
  | key
  | value
  | reference (name : Bytes)
  | anchor (name : Bytes)
  | tag (handle name : Bytes)
  | scalar (isPlain : Bool) (text : Bytes)
  deriving DecidableEq, Repr

/-- A token and the line, counted from zero, on which it starts. -/
structure Token where
  kind : Token.Kind
  line : Nat
  deriving DecidableEq, Repr

end GetterRename.Yaml
