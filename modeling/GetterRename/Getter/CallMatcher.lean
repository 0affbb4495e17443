import GetterRename.Getter.Finding

/-!
# Calls in a token stream

Finds getter calls in tokens that were not read as expressions, such as the arguments of a macro:
`.get_suffix()`, `Type::get_suffix()`, `.get_suffix::<T>()`.  The matcher is a machine that walks
through the groups as well; its state goes on behind a group.

- `CallMatcher.State` : what the last tokens may be part of;
- `CallMatcher.run` : the findings of a token list.
-/

namespace GetterRename.CallMatcher

/-- What the last tokens may be part of. -/
inductive State where
  | idle
  /-- Behind a dot. -/
  | dot
  /-- Behind the name of a get function. -/
  | named (cand : Candidate)
  /-- In the explicit generic arguments of a call. -/
  | params (cand : Candidate)
  /-- Behind the tick of a lifetime in them. -/
  | lifetime (cand : Candidate)
  /-- Before the name of a function definition. -/
  | fnName
  deriving DecidableEq, Repr

/-- The punctuation that ends any call. -/
def breakers : Bytes := ";,=+-/|"

/-- The state behind a punctuation character. -/
def punct (c : UInt8) (state : State) : State :=
  if breakers.contains c then .idle
  else
    match state with
    | .idle => if c = byte '.' then .dot else .idle
    | .named cand => if c = byte ':' || c = byte '<' then .params cand else .idle
    | .params cand => if c = byte '\'' then .lifetime cand else .params cand
    | _ => .idle

/-- The state behind a word that is not part of another call, and what there is to note. -/
def start (ctx : Context) (scope : Scope) (isMethod : Bool) (name : Ident) :
    State × List Finding :=
  match ctx.candidate? name .maybe isMethod with
  | some cand => (.named cand, [])
  | none => (.idle, if isMethod then [ctx.notAnAccessor scope name] else [])

/-- The state behind a word, and what there is to note. -/
def ident (ctx : Context) (scope : Scope) (name : Ident) (state : State) : State × List Finding :=
  if name.text = Bytes.ofString "fn" then (.fnName, [])
  else
    match state with
    | .idle => start ctx scope false name
    | .dot => start ctx scope true name
    | .params cand => (.params { cand with hasGenericParams := true }, [])
    | .lifetime cand => (.params cand, [])
    | _ => (.idle, [])

/-- What a group of arguments completes. -/
def group (ctx : Context) (scope : Scope) (delim : Delimiter) (isEmpty : Bool) (state : State) :
    List Finding :=
  match delim, state with
  | .paren, .named cand | .paren, .params cand =>
    let cand := { cand with hasMultipleArgs := cand.hasMultipleArgs || !isEmpty }
    [ctx.judge scope cand cand.streamObjection]
  | _, _ => []

mutual

/-- The state behind a token tree, and its findings. -/
def run (ctx : Context) (scope : Scope) (state : State) : Token → State × List Finding
  | .ident text pos => ident ctx scope ⟨text, pos⟩ state
  | .punct c _ _ => (punct c state, [])
  | .literal _ _ => (.idle, [])
  | .doc _ _ => (state, [])
  | .group delim tokens _ =>
    let found := group ctx scope delim tokens.isEmpty state
    let (state, inside) := runL ctx scope .idle tokens
    (state, found ++ inside)

/-- The state behind a token list, and its findings. -/
def runL (ctx : Context) (scope : Scope) (state : State) : List Token → State × List Finding
  | [] => (state, [])
  | t :: ts =>
    let (state, found) := run ctx scope state t
    let (state, more) := runL ctx scope state ts
    (state, found ++ more)

end

/-- The findings of a token list. -/
def findings (ctx : Context) (scope : Scope) (tokens : List Token) : List Finding :=
  (runL ctx scope .idle tokens).2

end GetterRename.CallMatcher
