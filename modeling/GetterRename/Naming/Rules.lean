import GetterRename.Naming.NewName

/-!
# Renaming rules

The rules are pure functions: from a name, or from what follows its `get_`, and the current
knowledge about the getter returning exactly one `bool`, they give the new name.

- `Naming.suffix?` : what follows `get_`;
- `Naming.reserved` : suffixes which cannot be renamed;
- `Naming.evident?`, `Naming.guessed?`, `Naming.forced` : the rules for `bool` getters;
- `Naming.plain` : the rule for other getters;
- `Naming.renameSuffix`, `Naming.rename` : all the rules in order.
-/

namespace GetterRename

/-- Why a name is not renamed. -/
inductive Refusal where
  /-- The name has no `get_` at its head. -/
  | notAnAccessor
  /-- The rest of the name is reserved. -/
  | reserved
  deriving DecidableEq, Repr

namespace Refusal

/-- The wording of a refusal. -/
def message : Refusal → Bytes
  | notAnAccessor => "not a get function"
  | reserved => "name is reserved"

end Refusal

namespace Naming

/-! ## Tables -/

/-- The head that the rules strip. -/
def getHead : Bytes := "get_"

/-- The regular head of a `bool` getter. -/
def isHead : Bytes := "is_"

/-- Suffixes which cannot be renamed: keywords, and words that would confuse a reader. -/
def reserved : List Bytes :=
  ["", "as", "async", "await", "break", "const", "continue", "crate", "do", "dyn", "else", "enum",
    "extern", "false", "fn", "for", "if", "impl", "in", "let", "loop", "match", "mod", "move",
    "mut", "pub", "ref", "return", "self", "static", "struct", "super", "trait", "true", "unsafe",
    "use", "where", "while", "abstract", "become", "box", "final", "macro", "override", "priv",
    "try", "typeof", "unsized", "virtual", "yield", "optional", "owned", "some"].map Bytes.ofString

/-- Suffixes of plain getters which are keywords only on their own. -/
def exactSubstitutes : List (Bytes × Bytes) := [("type", "type_")]

/-- Whole suffixes of `bool` getters with a name of their own. -/
def boolExactSubstitutes : List (Bytes × Bytes) := [("mute", "is_muted"), ("result", "result")]

/-- Leading verbs of `bool` getters and their third person singular. -/
def boolVerbSubstitutes : List (Bytes × Bytes) :=
  [("do", "does"), ("emit", "emits"), ("fill", "fills"), ("reset", "resets"), ("show", "shows")]

/-- Leading words that make `is_` redundant. -/
def boolNoPrefix : List Bytes :=
  ["can", "could", "does", "emits", "fills", "has", "have", "may", "must", "needs", "resets",
    "should", "shows", "uses", "will", "would"].map Bytes.ofString

/-- Leading words to move to the end. -/
def moved : List Bytes := ["mut"].map Bytes.ofString

/-- Words ending in `able` which are nouns. -/
def ableNouns : List Bytes := ["cable", "table", "timetable", "variable"].map Bytes.ofString

/-! ## Rules -/

/-- What follows `get_` in a name. -/
def suffix? (name : Bytes) : Option Bytes := Bytes.after? getHead name

/-- Whether the suffix cannot be renamed. -/
def isReserved (suffix : Bytes) : Bool := reserved.contains suffix

/-- The name of a `bool` getter. -/
def boolName (text : Bytes) (rule : Rule) : NewName := ⟨text, .yes, rule⟩

/-- The suffix behind a leading `is_`, its first word, and what follows that word. -/
def leading (suffix : Bytes) : Bytes × Bytes × Option Bytes :=
  let rest := Bytes.dropHead isHead suffix
  let (first, remainder) := Bytes.cutFirst (byte '_') rest
  (rest, first, remainder)

/-- The name of a getter whose suffix says that it returns a `bool`. -/
def evident? (suffix : Bytes) : Option NewName :=
  match boolExactSubstitutes.lookup suffix with
  | some substitute => some (boolName substitute .substituted)
  | none =>
    if suffix = Bytes.ofString "is" || suffix = Bytes.ofString "is_" then
      some (boolName "is" .regular)
    else
      let (rest, first, remainder) := leading suffix
      match boolVerbSubstitutes.lookup first with
      | some substitute =>
        match remainder with
        | some remainder => some (boolName (substitute ++ byte '_' :: remainder) .substituted)
        | none => some (boolName substitute .substituted)
      | none =>
        if boolNoPrefix.contains first then some (boolName rest .noPrefix)
        else if Bytes.startsWith suffix isHead then some (boolName suffix .regular)
        else none

/-- The name of a getter known to return a `bool`. -/
def forced (suffix : Bytes) : NewName :=
  (evident? suffix).getD (boolName (isHead ++ suffix) .regular)

/-- The name of a getter which may return a `bool`, if its suffix suggests so: an adjective in
`able` counts as well. -/
def guessed? (suffix : Bytes) : Option NewName :=
  (evident? suffix).orElse fun _ =>
    let (first, _) := Bytes.cutFirst (byte '_') suffix
    if Bytes.endsWith first "able" && !ableNouns.contains first then
      some (boolName (isHead ++ suffix) .substituted)
    else none

/-- The name of a getter that is not taken to return a `bool`. -/
def plain (suffix : Bytes) (returnsBool : ReturnsBool) : NewName :=
  match exactSubstitutes.lookup suffix with
  | some substitute => ⟨substitute, returnsBool, .substituted⟩
  | none =>
    match Bytes.cutFirst (byte '_') suffix with
    | (first, some (b :: remainder)) =>
      if moved.contains first then ⟨b :: remainder ++ byte '_' :: first, returnsBool, .fixed⟩
      else ⟨suffix, returnsBool, .regular⟩
    | _ => ⟨suffix, returnsBool, .regular⟩

/-- The new name of a getter from what follows its `get_`. -/
def renameSuffix (suffix : Bytes) (returnsBool : ReturnsBool) : Except Refusal NewName :=
  if isReserved suffix then .error .reserved
  else
    match returnsBool with
    | .yes => .ok (forced suffix)
    | .maybe => .ok ((guessed? suffix).getD (plain suffix .maybe))
    | .no => .ok (plain suffix .no)

/-- The new name of a function. -/
def rename (name : Bytes) (returnsBool : ReturnsBool) : Except Refusal NewName :=
  match suffix? name with
  | none => .error .notAnAccessor
  | some suffix => renameSuffix suffix returnsBool

end Naming

end GetterRename
