import GetterRename.Source.Event

/-!
# From events to token trees

A stack of open groups turns a sequence of events into token trees.

- `Frame` : a group that is still open;
- `Token.nest` : the trees of an event sequence, or the first closing delimiter that does not match;
- `Token.lex` : the token trees of a file.
-/

namespace GetterRename

/-- A group that is still open, with the tokens of the list around it, the latest first. -/
structure Frame where
  delim : Delimiter
  pos : Pos
  before : List Token
  deriving Repr

namespace Token

/-- Runs the events over a stack of open groups and the tokens of the innermost one, the latest
first. -/
def nest : List Event → List Frame → List Token → Except SyntaxError (List Frame × List Token)
  | [], frames, tokens => .ok (frames, tokens)
  | .token t :: events, frames, tokens => nest events frames (t :: tokens)
  | .opening d p :: events, frames, tokens => nest events (⟨d, p, tokens⟩ :: frames) []
  | .closing d p :: events, frames, tokens =>
    match frames with
    | [] => .error ⟨p, .unopened d⟩
    | frame :: frames =>
      if frame.delim = d then
        nest events frames (.group frame.delim tokens.reverse frame.pos :: frame.before)
      else .error ⟨p, .unopened d⟩

/-- The token trees of an event sequence that ends with the given fault, if any. A closing
delimiter that does not match comes before the fault, a group left open after it. -/
def ofEvents (events : List Event) (fault : Option SyntaxError) : Except SyntaxError (List Token) :=
  match nest events [] [] with
  | .error e => .error e
  | .ok (frames, tokens) =>
    match fault, frames with
    | some e, _ => .error e
    | none, [] => .ok tokens.reverse
    | none, frame :: _ => .error ⟨frame.pos, .unclosed frame.delim⟩

/-- The token trees of a file. -/
def lex (src : Bytes) : Except SyntaxError (List Token) :=
  let (events, fault) := Event.ofSource src
  ofEvents events fault

end Token

end GetterRename
