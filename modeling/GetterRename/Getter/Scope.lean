import GetterRename.Text.Bytes

/-!
# Scopes, tools and modes

Where a getter stands and how a run treats getters.

- `Scope` : the lexical container of a getter;
- `Tool` : whether a run renames calls or definitions;
- `Mode` : which get functions count as getters;
- `DocAlias` : whether renamed definitions keep their former name as an alias.
-/

namespace GetterRename

/-- The kind of a lexical container. -/
inductive ScopeKind where
  /-- The file itself, outside of any item. -/
  | unexpected
  /-- A free function, or anything nested in one. -/
  | moduleFunction
  | const
  | static
  | module
  | inherentImpl
  | trait
  | traitImpl
  /-- The body of a macro definition or invocation. -/
  | macroBody
  /-- A code block in documentation. -/
  | documentation
  /-- A number without a meaning of its own. -/
  | other (code : Int)
  deriving DecidableEq, Repr

namespace ScopeKind

/-- The number of a kind. -/
def code : ScopeKind → Int
  | unexpected => 0
  | moduleFunction => 1
  | const => 2
  | static => 3
  | module => 4
  | inherentImpl => 5
  | trait => 6
  | traitImpl => 7
  | macroBody => 8
  | documentation => 9
  | other code => code

/-- The kind with the number `code`. -/
def ofCode : Int → ScopeKind
  | 0 => unexpected
  | 1 => moduleFunction
  | 2 => const
  | 3 => static
  | 4 => module
  | 5 => inherentImpl
  | 6 => trait
  | 7 => traitImpl
  | 8 => macroBody
  | 9 => documentation
  | code => other code

end ScopeKind

/-- The lexical container of a place in a file. -/
structure Scope where
  kind : ScopeKind
  /-- The name of the item, or of the type of an inherent `impl`. -/
  name : Bytes
  /-- The type of a trait `impl`. -/
  type : Bytes
  deriving DecidableEq, Repr

namespace Scope

/-- The scope of a file. -/
def file : Scope := ⟨.unexpected, [], []⟩

/-- Whether a definition renamed here keeps its former name as an alias; nothing where the scope
does not decide by itself, as for items of a module. -/
def needsDocAlias? (scope : Scope) : Option Bool :=
  match scope.kind with
  | .inherentImpl | .trait | .macroBody => some true
  | .traitImpl | .documentation => some false
  | _ => none

/-- The scope as it is shown to a reader. -/
def display (scope : Scope) : Bytes :=
  match scope.kind with
  | .moduleFunction => "fn " ++ scope.name
  | .const => "const " ++ scope.name
  | .static => "static " ++ scope.name
  | .module => "mod " ++ scope.name
  | .inherentImpl | .trait => scope.name
  | .traitImpl => "impl " ++ scope.name ++ " for " ++ scope.type
  | .macroBody => "macro! " ++ scope.name
  | .documentation => "documentation"
  | _ => "**Unexpected scope**"

end Scope

/-- Which use of getters a run renames. -/
inductive Tool where
  /-- Calls: `.get_foo()` becomes `.foo()`. -/
  | calls
  /-- Definitions: `fn get_foo(&self)` becomes `fn foo(&self)`. -/
  | definitions
  deriving DecidableEq, Repr

namespace Tool

/-- The name of a tool. -/
def name : Tool → String
  | calls => "calls"
  | definitions => "definitions"

/-- The name of the tool with the number `code`. -/
def nameOfCode (code : Int) : String :=
  if code = 0 then calls.name else if code = 1 then definitions.name else "unknown"

end Tool

/-- Which get functions count as getters. -/
inductive Mode where
  /-- Every function with `get_` at its head. -/
  | allGetFunctions
  /-- Methods without arguments besides `self` and without type parameters, and all functions known
  or guessed to return a `bool`. -/
  | conservative
  deriving DecidableEq, Repr

namespace Mode

/-- The name of a mode. -/
def name : Mode → String
  | allGetFunctions => "all-get-functions"
  | conservative => "conservative"

/-- The mode with the number `code`; only the number one is conservative. -/
def ofCode (code : Int) : Mode := if code = 1 then conservative else allGetFunctions

end Mode

/-- Whether renamed definitions keep their former name as an alias. -/
inductive DocAlias where
  /-- Where the scope asks for one. -/
  | generate
  /-- Never. -/
  | discard
  deriving DecidableEq, Repr

namespace DocAlias

/-- Whether aliases are written. -/
def mustGenerate : DocAlias → Bool
  | generate => true
  | discard => false

/-- The policy with the number `code`; only the number zero writes aliases. -/
def ofCode (code : Int) : DocAlias := if code = 0 then generate else discard

end DocAlias

end GetterRename
