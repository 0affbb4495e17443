import GetterRename.Source.Token

/-!
# The outline of a file

What getter renaming has to know about a file: functions with their signatures, `impl` and trait
blocks, modules, constants, macros, method and path calls, and documentation lines.  Everything
else is left out.

- `Construct` : a construct without what stands inside it;
- `Node` : a construct with the nodes inside it, a macro, or a documentation line.
-/

namespace GetterRename

/-- A name and where it stands. -/
structure Ident where
  text : Bytes
  pos : Pos
  deriving DecidableEq, Repr

/-- A line of documentation, from a comment or from a `#[doc = "..."]` attribute. -/
structure DocLine where
  text : Bytes
  line : Nat
  deriving DecidableEq, Repr

/-- The signature of a function: its parameters are the token lists between commas. -/
structure Signature where
  name : Ident
  generics : List (List Token)
  inputs : List (List Token)
  output : List Token
  deriving Repr

namespace Signature

/-- Whether a generic parameter is a lifetime. -/
def isLifetime (param : List Token) : Bool := param.head?.any (·.isPunct '\'')

/-- Whether what stands behind `&` and `mut` in a parameter makes it a receiver: `self` alone or
with its type. -/
def isSelf : List Token → Bool
  | t :: rest => t.isIdent "self" && rest.head?.all (·.isPunct ':')
  | [] => false

/-- The parameter without the `&` and the lifetime at its head. -/
def dropRef : List Token → List Token
  | t :: rest =>
    if t.isPunct '&' then
      match rest with
      | tick :: _ :: rest' => if tick.isPunct '\'' then rest' else rest
      | _ => rest
    else t :: rest
  | [] => []

/-- Whether an input is `self`, `mut self`, `&self`, `&'a mut self` or `self: Type`. -/
def isReceiver (param : List Token) : Bool :=
  match dropRef param with
  | t :: rest => isSelf (if t.isIdent "mut" then rest else t :: rest)
  | [] => false

/-- Whether the declared return type is exactly `bool`. -/
def returnsBool (sig : Signature) : Bool :=
  match sig.output with
  | [t] => t.isIdent "bool"
  | _ => false

/-- Whether the signature has generic parameters other than lifetimes. -/
def hasTypeParams (sig : Signature) : Bool := sig.generics.any fun p => !isLifetime p

/-- Whether the first input is a receiver. -/
def isMethod (sig : Signature) : Bool := sig.inputs.head?.any isReceiver

end Signature

/-- A call: its name, whether `::<...>` follows it, and whether it has arguments. -/
structure CallSite where
  name : Ident
  turbofish : Bool
  hasArgs : Bool
  deriving DecidableEq, Repr

/-- A macro invocation, or a `macro_rules!` definition, with the tokens between its delimiters. -/
structure MacroUse where
  name : Bytes
  isDefinition : Bool
  line : Nat
  tokens : List Token
  deriving Repr

/-- A construct without what stands inside it. -/
inductive Construct where
  /-- A function or a method; inside it is its body. -/
  | fn (sig : Signature)
  /-- An `impl` block; an inherent one has no trait. -/
  | impl (trait : Option Bytes) (type : Bytes)
  | trait (name : Bytes)
  | module (name : Bytes)
  /-- A `const` or `static` item; inside it is its value. -/
  | const (name : Bytes) (isStatic : Bool)
  /-- A call `.name(...)`; inside it are its arguments. -/
  | methodCall (call : CallSite)
  /-- A call `path::name(...)`; inside it are its arguments. -/
  | call (call : CallSite)
  deriving Repr

/-- An element of the outline. -/
inductive Node where
  | doc (line : DocLine)
  | macroUse (use : MacroUse)
  | construct (head : Construct) (inside : List Node)
  deriving Repr

end GetterRename
