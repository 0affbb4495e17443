import GetterRename.Getter.Finding

/-!
# Definitions in a token stream

Finds getter definitions in tokens that were not read as items, typically the template of a macro,
where `$name` stands in place of a type: `fn get_suffix(&self) -> $ty { ... }`.  The word `fn`
always starts anew, so many definitions in one stream need no matching of braces.

- `DefinitionMatcher.Phase` : which part of a definition the machine is in;
- `DefinitionMatcher.State` : what the last tokens may be part of;
- `DefinitionMatcher.run` : the findings of a token list.
-/

namespace GetterRename.DefinitionMatcher

/-- The part of a definition that comes next. -/
inductive Phase where
  /-- Behind the name. -/
  | named
  /-- In the generic parameters, with so many angle brackets open. -/
  | params (angles : Int)
  /-- Behind the tick of a lifetime in them. -/
  | paramLifetime (angles : Int)
  /-- In or behind the arguments. -/
  | args
  /-- Behind the `&` of an argument. -/
  | argRef
  /-- Behind the tick of a lifetime of an argument. -/
  | argLifetime
  /-- Behind `&self`. -/
  | argSelf
  /-- In the return type. -/
  | ret
  /-- Behind the tick of a lifetime in it. -/
  | retLifetime
  deriving DecidableEq, Repr

namespace Phase

/-- Whether the phase belongs to the arguments. -/
def isInArgs : Phase → Bool
  | args | argRef | argLifetime | argSelf => true
  | _ => false

end Phase

/-- What the last tokens may be part of. -/
inductive State where
  | idle
  /-- Behind the word `fn`, which stands at nesting level `depth`. -/
  | fn (depth : Nat)
  /-- In the definition of a candidate whose `fn` stands at nesting level `depth`. -/
  | pending (phase : Phase) (cand : Candidate) (depth : Nat)
  deriving DecidableEq, Repr

/-- The machine: its state, and whether the last token was `-` or `=`. -/
structure Machine where
  state : State := .idle
  afterDash : Bool := false
  deriving DecidableEq, Repr

/-- The decision about a candidate whose definition is complete. -/
def decided (ctx : Context) (scope : Scope) (cand : Candidate) : State × List Finding :=
  (.idle, [ctx.judge scope cand cand.streamObjection])

/-- The state of a candidate behind a punctuation character at nesting level `level`. -/
def pendingPunct (ctx : Context) (scope : Scope) (level : Nat) (c : UInt8) (afterDash : Bool)
    (phase : Phase) (cand : Candidate) (depth : Nat) : State × List Finding :=
  match phase with
  | .named => (if c = byte '<' then .pending (.params 1) cand depth else .idle, [])
  | .params angles =>
    let phase : Phase :=
      if c = byte '\'' then .paramLifetime angles
      else if c = byte '<' then .params (angles + 1)
      else if c = byte '>' && !afterDash then .params (angles - 1)
      else .params angles
    (.pending phase cand depth, [])
  | .paramLifetime _ => (.idle, [])
  | .args | .argSelf =>
    if c = byte '-' && level = depth then (.pending .ret { cand with returnsBool := .no } depth, [])
    else if level ≠ depth + 1 then (.pending phase cand depth, [])
    else if c = byte '&' then (.pending .argRef cand depth, [])
    else if c = byte '\'' then (.pending .argLifetime cand depth, [])
    else if c = byte ',' then (.pending .args { cand with hasMultipleArgs := true } depth, [])
    else (.pending .args cand depth, [])
  | .argRef => (.pending (if c = byte '\'' then .argLifetime else .args) cand depth, [])
  | .argLifetime => (.pending .argRef cand depth, [])
  | .ret =>
    if c = byte '>' || c = byte '&' then (.pending .ret cand depth, [])
    else if c = byte '\'' then (.pending .retLifetime cand depth, [])
    else if c = byte '$' then decided ctx scope cand -- a metavariable stands for the body
    else decided ctx scope { cand with returnsBool := .no }
  | .retLifetime => (.pending .retLifetime cand depth, [])

/-- The state behind a punctuation character at nesting level `level`. -/
def punct (ctx : Context) (scope : Scope) (level : Nat) (c : UInt8) (m : Machine) :
    State × List Finding :=
  match m.state with
  | .idle => (.idle, [])
  | .fn depth => (if c = byte ';' && level = depth then .idle else .fn depth, [])
  | .pending phase cand depth =>
    if c = byte ';' && level = depth then decided ctx scope cand
    else pendingPunct ctx scope level c m.afterDash phase cand depth

/-- The state of a candidate behind a word. -/
def pendingIdent (ctx : Context) (scope : Scope) (text : Bytes) (phase : Phase) (cand : Candidate)
    (depth : Nat) : State × List Finding :=
  match phase with
  | .named => (.idle, [])
  | .params angles => (.pending (.params angles) { cand with hasGenericParams := true } depth, [])
  | .paramLifetime angles => (.pending (.params angles) cand depth, [])
  | .args => (.pending .args cand depth, [])
  | .argRef =>
    if text = Bytes.ofString "self" then (.pending .argSelf { cand with isMethod := true } depth, [])
    else (.pending (if text = Bytes.ofString "mut" then .argRef else .args) cand depth, [])
  | .argLifetime => (.pending .argRef cand depth, [])
  | .argSelf => (.pending .args cand depth, [])
  | .ret =>
    if text = Bytes.ofString "bool" && cand.returnsBool = .no then
      -- a later token may still take this back
      (.pending .ret { cand with returnsBool := .yes } depth, [])
    else if text = Bytes.ofString "where" then decided ctx scope cand
    else decided ctx scope { cand with returnsBool := .no }
  | .retLifetime => (.pending .ret cand depth, [])

/-- The state behind the name of a function whose `fn` stands at nesting level `depth`. -/
def fnName (ctx : Context) (scope : Scope) (depth : Nat) (name : Ident) : State × List Finding :=
  match ctx.candidate? name .no false with
  | some cand => (.pending .named cand depth, [])
  | none => (.idle, [ctx.notAnAccessor scope name])

/-- The state behind a word at nesting level `level`. In the arguments of a candidate the word `fn`
starts the type of an argument. -/
def ident (ctx : Context) (scope : Scope) (level : Nat) (name : Ident) (m : Machine) :
    State × List Finding :=
  let isFn := name.text == Bytes.ofString "fn"
  match m.state with
  | .idle => (if isFn then .fn level else .idle, [])
  | .fn depth => if isFn then (.fn level, []) else fnName ctx scope depth name
  | .pending phase cand depth =>
    if isFn && !(phase.isInArgs && depth < level) then (.fn level, (decided ctx scope cand).2)
    else pendingIdent ctx scope name.text phase cand depth

/-- The state of a candidate before the tokens of a group at nesting level `level`. -/
def pendingGroup (ctx : Context) (scope : Scope) (level : Nat) (delim : Delimiter) (isEmpty : Bool)
    (phase : Phase) (cand : Candidate) (depth : Nat) : State × List Finding :=
  let args := { cand with hasNoArgs := cand.hasNoArgs || isEmpty }
  match phase with
  | .named => (if delim = .paren then .pending .args args depth else .idle, [])
  | .params angles =>
    if 0 < angles then (.pending (.params angles) cand depth, [])
    else (if delim = .paren then .pending .args args depth else .idle, [])
  | .paramLifetime angles => (.pending (.paramLifetime angles) cand depth, [])
  | .args | .argRef | .argLifetime | .argSelf =>
    -- a body behind the arguments: there is no return type
    (if level = depth then .idle else .pending .args cand depth, [])
  | .ret | .retLifetime =>
    decided ctx scope (if delim = .brace then cand else { cand with returnsBool := .no })

/-- The state before the tokens of a group at nesting level `level`. -/
def group (ctx : Context) (scope : Scope) (level : Nat) (delim : Delimiter) (isEmpty : Bool)
    (m : Machine) : State × List Finding :=
  match m.state with
  | .pending phase cand depth => pendingGroup ctx scope level delim isEmpty phase cand depth
  | state => (state, [])

mutual

/-- The machine behind a token tree at nesting level `level`, and its findings. -/
def run (ctx : Context) (scope : Scope) (level : Nat) (m : Machine) : Token → Machine × List Finding
  | .ident text pos =>
    let (state, found) := ident ctx scope level ⟨text, pos⟩ m
    (⟨state, false⟩, found)
  | .punct c _ _ =>
    let (state, found) := punct ctx scope level c m
    (⟨state, c = byte '-' || c = byte '='⟩, found)
  | .literal _ _ => (⟨.idle, false⟩, [])
  | .doc _ _ => (⟨m.state, false⟩, [])
  | .group delim tokens _ =>
    let (state, found) := group ctx scope level delim tokens.isEmpty m
    let (inner, inside) := runL ctx scope (level + 1) ⟨state, m.afterDash⟩ tokens
    (⟨inner.state, false⟩, found ++ inside)

/-- The machine behind a token list at nesting level `level`, and its findings. -/
def runL (ctx : Context) (scope : Scope) (level : Nat) (m : Machine) :
    List Token → Machine × List Finding
  | [] => (m, [])
  | t :: ts =>
    let (m, found) := run ctx scope level m t
    let (m, more) := runL ctx scope level m ts
    (m, found ++ more)

end

/-- The findings of a token list. A candidate still pending at its end is dropped. -/
def findings (ctx : Context) (scope : Scope) (tokens : List Token) : List Finding :=
  (runL ctx scope 0 {} tokens).2

end GetterRename.DefinitionMatcher
