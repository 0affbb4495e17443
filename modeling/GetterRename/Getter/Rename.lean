import GetterRename.Naming.NewName
import GetterRename.Getter.Scope

/-!
# Renames

- `Candidate` : a name suspected of being a getter;
- `Reason` : why a get function is not taken for a getter;
- `Rename` : a confirmed rename waiting to be applied to the text;
- `Record` : a rename as reports keep it.
-/

namespace GetterRename

/-- A name suspected of being a getter, and what is known about its shape. -/
structure Candidate where
  name : Bytes
  /-- What follows `get_`. -/
  suffix : Bytes
  /-- The line in the file, from one. -/
  line : Int
  /-- The byte offset of the name in its line, `-1` when unknown. -/
  column : Int
  returnsBool : ReturnsBool
  isMethod : Bool
  hasGenericParams : Bool := false
  hasMultipleArgs : Bool := false
  hasNoArgs : Bool := false
  deriving DecidableEq, Repr

namespace Candidate

/-- A candidate as it is shown in messages. -/
def display (name : Bytes) (line : Int) : Bytes := name ++ "() @ " ++ Bytes.ofInt line

end Candidate

/-- Why a function with the head of a getter is not renamed. -/
inductive Reason where
  | genericTypeParam
  | multipleArgs
  | notAMethod
  | nonSelfUniqueArg
  | noArgs
  deriving DecidableEq, Repr

namespace Reason

/-- The wording of a reason. -/
def message : Reason → String
  | genericTypeParam => "generic type parameter(s)"
  | multipleArgs => "multiple arguments (incl. self)"
  | notAMethod => "not a method"
  | nonSelfUniqueArg => "unique argument is not self"
  | noArgs => "no arguments"

/-- The wording of the reason with the number `code`. -/
def messageOfCode (code : Int) : String :=
  if code < 0 then "unknown reason"
  else ([genericTypeParam, multipleArgs, notAMethod, nonSelfUniqueArg, noArgs][code.toNat]?).elim
    "unknown reason" message

end Reason

/-- A confirmed rename waiting to be applied to the text. -/
structure Rename where
  name : Bytes
  newName : NewName
  line : Int
  /-- The byte offset of the name in its line, negative when unknown. -/
  column : Int
  scope : Scope
  /-- Whether the name is called as a method. -/
  isMethod : Bool
  /-- Whether the definition keeps its former name as an alias. -/
  needsDocAlias : Bool
  deriving DecidableEq, Repr

namespace Rename

/-- A rename as it is shown in messages. -/
def display (r : Rename) : Bytes :=
  let mark : Bytes := if r.needsDocAlias then " needs doc alias" else ""
  r.name ++ "() " ++ r.newName.display ++ "() @ " ++ Bytes.ofInt r.line ++ mark

end Rename

/-- A rename as reports keep it. -/
structure Record where
  line : Int
  name : Bytes
  newName : Bytes
  rule : Bytes
  scope : Bytes
  docAlias : Bool
  deriving DecidableEq, Repr

namespace Record

/-- The record of a rename that was applied, with or without an alias. -/
def ofRename (r : Rename) (docAlias : Bool) : Record :=
  ⟨r.line, r.name, r.newName.text, Bytes.ofString r.newName.rule.label, r.scope.display, docAlias⟩

end Record

end GetterRename
