import GetterRename.Text.Bytes

/-!
# New names

The outcome of renaming a getter: the new name, what is known about the getter returning exactly
one `bool`, and the rule that produced the name.  The rule only tells a reader what happened; no
decision depends on it.

- `ReturnsBool` : whether a getter returns a single `bool`, as far as known;
- `Rule` : the rule behind a new name;
- `NewName` : a new name with both.
-/

namespace GetterRename

/-- What is known about a getter returning exactly one `bool`. -/
inductive ReturnsBool where
  /-- The return type is known not to be a single `bool`. -/
  | no
  /-- The return type is known or guessed to be a single `bool`. -/
  | yes
  /-- The return type is unknown, as at a call. -/
  | maybe
  deriving DecidableEq, Repr

namespace ReturnsBool

/-- A definite answer. -/
def ofBool : Bool → ReturnsBool
  | true => yes
  | false => no

/-- The knowledge as it is shown behind a function. -/
def display : ReturnsBool → String
  | no => ""
  | yes => "-> bool"
  | maybe => "-> ?"

/-- The knowledge with the number `code`. -/
def ofCode? (code : Int) : Option ReturnsBool :=
  if code = 0 then some no else if code = 1 then some yes else if code = 2 then some maybe else none

end ReturnsBool

/-- The rule that produced a new name. -/
inductive Rule where
  /-- The head is removed, or replaced with `is_`: `get_name` becomes `name`. -/
  | regular
  /-- The name is put right: `get_mut_structure` becomes `structure_mut`. -/
  | fixed
  /-- A `bool` getter that needs no `is_`: `get_has_entry` becomes `has_entry`. -/
  | noPrefix
  /-- A substitution: `get_mute` becomes `is_muted`. -/
  | substituted
  deriving DecidableEq, Repr

namespace Rule

/-- The rule as a verb in front of the new name. -/
def display : Rule → String
  | regular => "renamed as"
  | fixed => "fixed as"
  | noPrefix => "kept as"
  | substituted => "substituted with"

/-- The rule as a word in reports. -/
def label : Rule → String
  | regular => "regular"
  | fixed => "fixed"
  | noPrefix => "no-prefix"
  | substituted => "substituted"

/-- The rule with the number `code`; numbers without a rule are regular. -/
def ofCode (code : Int) : Rule :=
  if code = 1 then fixed else if code = 2 then noPrefix else if code = 3 then substituted else regular

end Rule

/-- A new name and how it came about. -/
structure NewName where
  text : Bytes
  returnsBool : ReturnsBool
  rule : Rule
  deriving DecidableEq, Repr

namespace NewName

/-- The new name behind its rule and what is known about the getter. -/
def display (n : NewName) : Bytes :=
  let renamed := Bytes.ofString n.rule.display ++ " " ++ n.text
  match n.returnsBool with
  | .no => renamed
  | known => Bytes.ofString known.display ++ " " ++ renamed

end NewName

end GetterRename
