import GetterRename.Yaml.Token.Property

/-!
# Reading tokens

The tokens of a document from its characters.  The indentation of a line tells which lists and maps
end before it.  A token that may be a key is remembered until a colon follows it on the same line,
which puts the mark of a key, and perhaps the start of a map, before it.

- `Candidate` : a token that may turn out to be a key;
- `Scan`, `Scan.step` : the tokens so far and the place in the text, and one token more;
- `Scan.isSettled` : whether a token will stay as it is;
- `Tokens.ofText` : the tokens of a text.
-/

namespace GetterRename.Yaml

/-- A token that may turn out to be a key. -/
structure Candidate where
  /-- The number of tokens before it. -/
  number : Nat
  line : Nat
  col : Nat
  /-- Whether nothing but a key may stand there. -/
  isRequired : Bool
  deriving DecidableEq, Repr

/-- The longest way from the start of a key to its colon. -/
def Candidate.reach : Nat := 1024

/-- Whether a colon at the place could still make the candidate a key. -/
def Candidate.isLive (c : Candidate) (place : Cursor) : Bool :=
  c.line = place.line && place.col ≤ c.col + reach

/-- The candidates in a pair of brackets, or outside of all. -/
structure Level where
  /-- The number of the token that is the opening bracket. -/
  opening : Nat := 0
  /-- The last token that may turn out to be a key. -/
  candidate : Option Candidate := none
  /-- Whether there has been such a token. -/
  hasCandidates : Bool := false
  /-- The numbers of the tokens that are held back as long as the last candidate may become a key:
  the candidate itself, and earlier ones that a colon on another line has passed over. -/
  held : List Nat := []
  deriving DecidableEq, Repr

namespace Level

/-- The level without its candidate. -/
def forget (level : Level) : Level := { level with candidate := none }

/-- The level without holding back the token with the given number. -/
def release (number : Nat) (level : Level) : Level := { level with held := level.held.erase number }

/-- The level with a new candidate. -/
def remember (candidate : Candidate) (level : Level) : Level :=
  { level with candidate, hasCandidates := true, held := candidate.number :: level.held }

end Level

/-- The tokens so far and the place in the text. -/
structure Scan where
  cursor : Cursor
  tokens : Array Token := #[]
  /-- The columns of the lists and maps outside of brackets, the innermost first. -/
  indents : List Nat := []
  /-- Whether a key may start at the place. -/
  keyAllowed : Bool := true
  /-- The candidates in the innermost brackets. -/
  level : Level := {}
  /-- Those in the brackets around them. -/
  outer : List Level := []
  /-- The number of tokens that are handed out. -/
  handed : Nat := 0
  /-- Whether the end of the text is reached. -/
  isEnded : Bool := false
  /-- What is wrong behind the text. -/
  failure : Option Error := none
  /-- Whether the text starts with a mark of its encoding besides the one that is not part of it. -/
  hasSpareMark : Bool := false

namespace Scan

/-- The error with the given cause in a part that starts on the line `start`. -/
def fail {α : Type} (s : Scan) (cause : Problem) (start : Nat) : Except Error α :=
  .error (.problem cause start s.cursor.line)

/-- Whether the place is inside brackets. -/
def inFlow (s : Scan) : Bool := !s.outer.isEmpty

/-- The column that a line needs to belong to the innermost list or map. -/
def least (s : Scan) : Nat := (s.indents.head?.map (· + 1)).getD 0

/-- The deepest nesting. -/
def deepest : Nat := 10000

/-- One token more. -/
def push (s : Scan) (kind : Token.Kind) (line : Nat) : Scan :=
  { s with tokens := s.tokens.push ⟨kind, line⟩ }

/-- One token more, before the token with the given number, or at the end if that one is handed out.
-/
def insert (s : Scan) (number : Nat) (kind : Token.Kind) (line : Nat) : Scan :=
  if number < s.handed then s.push kind line
  else { s with tokens := s.tokens.insertIdxIfInBounds number ⟨kind, line⟩ }

/-! ## Keys -/

/-- Gives up the candidate. -/
def drop (s : Scan) : Except Error Scan :=
  match s.level.candidate with
  | some c =>
    if c.isRequired then s.fail .missingColon c.line
    else .ok { s with level := (s.level.release c.number).forget }
  | none => .ok s

/-- Remembers the next token as a candidate, if a key may start there. -/
def remember (s : Scan) : Except Error Scan :=
  if s.keyAllowed then
    let isRequired := !s.inFlow && s.indents.head? = some s.cursor.col
    s.drop.map fun s =>
      { s with level := s.level.remember ⟨s.tokens.size, s.cursor.line, s.cursor.col, isRequired⟩ }
  else .ok s

/-- The candidate, if a colon makes it a key. -/
def key? (s : Scan) : Except Error (Option Candidate) :=
  match s.level.candidate with
  | some c =>
    if c.isLive s.cursor then .ok (some c)
    else if c.isRequired then s.fail .missingColon c.line
    else .ok none
  | none => .ok none

/-! ## Indentation -/

/-- Starts a list or map at the given column, unless it is the one that is open there. -/
def enter (s : Scan) (col line : Nat) (kind : Token.Kind) (number : Nat) : Except Error Scan :=
  if s.inFlow || col < s.least then .ok s
  else
    let s := { s.insert number kind line with indents := col :: s.indents }
    if deepest < s.indents.length then s.fail .tooDeep line else .ok s

/-- Ends the lists and maps whose columns satisfy `p`, from the innermost one on. -/
def leave (s : Scan) (p : Nat → Bool) : Scan :=
  if s.inFlow then s
  else
    let ended := (s.indents.takeWhile p).length
    { s with
      indents := s.indents.drop ended
      tokens := s.tokens ++ Array.replicate ended ⟨.blockEnd, s.cursor.line⟩ }

/-! ## Tokens -/

/-- One token of one character more. -/
def mark (s : Scan) (kind : Token.Kind) (keyAllowed : Bool) : Scan :=
  { s.push kind s.cursor.line with cursor := s.cursor.move 1, keyAllowed }

/-- An opening bracket. -/
def openFlow (s : Scan) (kind : Token.Kind) : Except Error Scan := do
  let s ← s.remember
  let s := { s with level := { opening := s.tokens.size }, outer := s.level :: s.outer }
  if deepest < s.outer.length then s.fail .tooDeep s.cursor.line
  else return s.mark kind true

/-- A closing bracket. -/
def closeFlow (s : Scan) (kind : Token.Kind) : Except Error Scan := do
  let s ← s.drop
  let s :=
    match s.outer with
    | level :: outer =>
      -- an opening bracket is held back only as long as a token in the brackets may be a key
      let level := if s.level.hasCandidates then level else level.release s.level.opening
      { s with level, outer }
    | [] => s
  return s.mark kind false

/-- A comma. -/
def comma (s : Scan) : Except Error Scan := do return (← s.drop).mark .comma true

/-- A dash. -/
def dash (s : Scan) : Except Error Scan := do
  if !s.inFlow && !s.keyAllowed then s.fail .listEntry s.cursor.line
  else
    let s ← s.enter s.cursor.col s.cursor.line .blockListStart s.tokens.size
    return (← s.drop).mark .dash true

/-- A question mark that starts a key. -/
def questionMark (s : Scan) : Except Error Scan := do
  if !s.inFlow && !s.keyAllowed then s.fail .mappingKey s.cursor.line
  else
    let s ← s.enter s.cursor.col s.cursor.line .blockMapStart s.tokens.size
    return (← s.drop).mark .key (!s.inFlow)

/-- A colon that starts a value. -/
def colon (s : Scan) : Except Error Scan := do
  match ← s.key? with
  | some c =>
    let s := s.insert c.number .key c.line
    let s ← s.enter c.col c.line .blockMapStart c.number
    return { s.mark .value false with level := (s.level.release c.number).forget }
  | none =>
    let s := { s with level := s.level.forget }
    if !s.inFlow && !s.keyAllowed then s.fail .mappingValue s.cursor.line
    else
      let s ← s.enter s.cursor.col s.cursor.line .blockMapStart s.tokens.size
      return s.mark .value (!s.inFlow)

/-- A mark between documents. -/
def documentMark (s : Scan) (kind : Token.Kind) : Except Error Scan := do
  let s ← (s.leave fun _ => true).drop
  return { s.push kind s.cursor.line with cursor := s.cursor.move 3, keyAllowed := false }

/-- A token that is read by `read`. -/
def property (s : Scan) (read : Cursor → Property.Result) (c : Cursor) : Except Error Scan :=
  match read c with
  | .error cause => s.fail cause s.cursor.line
  | .ok (kind, stop) => .ok { s.push kind s.cursor.line with cursor := stop, keyAllowed := false }

/-- A line that starts with `%`. -/
def directive (s : Scan) : Except Error Scan := do
  let s ← (s.leave fun _ => true).drop
  s.property Property.directive (s.cursor.move 1)

/-- A name, a reference or a tag, any of which may start a key. -/
def nodeProperty (s : Scan) (read : Cursor → Property.Result) (c : Cursor) : Except Error Scan := do
  (← s.remember).property read c

/-- The error of a scalar that starts at the place. -/
def scalarError {α : Type} (s : Scan) (e : Problem × Nat) : Except Error α :=
  .error (.problem e.1 s.cursor.line e.2)

/-- A block of lines behind `|` or `>`. -/
def block (s : Scan) (isFolded : Bool) : Except Error Scan := do
  let s ← s.drop
  match Block.read isFolded s.least (s.cursor.move 1) with
  | .error e => s.scalarError e
  | .ok (text, stop) =>
    return { s.push (.scalar false (bytesOf text)) s.cursor.line with
      cursor := stop, keyAllowed := true }

/-- A scalar in quotes. -/
def quoted (s : Scan) (isSingle : Bool) : Except Error Scan := do
  let s ← s.remember
  let c := s.cursor.move 1
  match quotedFrom isSingle .none c.line c.col 0 c.rest with
  | .error e => s.scalarError e
  | .ok (text, stop) =>
    return { s.push (.scalar false (bytesOf text)) s.cursor.line with
      cursor := stop, keyAllowed := false }

/-- A scalar without quotes. Behind a line break a key may follow it. -/
def plain (s : Scan) : Except Error Scan := do
  let s ← s.remember
  match plainFrom s.inFlow s.least .none s.cursor.line s.cursor.col s.cursor.rest with
  | .error e => s.scalarError e
  | .ok found =>
    return { s.push (.scalar true (bytesOf found.text)) s.cursor.line with
      cursor := found.stop, keyAllowed := found.crossed }

/-- Whether a scalar without quotes may start with the character before the text. -/
def isPlainStart (inFlow : Bool) (c : Char) (rest : List Char) : Bool :=
  if c = '-' then !rest.head?.any isBlank
  else if c = '?' || c = ':' then !inFlow && !startsApart rest
  else !(isBlank c || isBreak c || ",[]\x7b\x7d#&*!|>'\"%@`".toList.contains c)

/-- The token that starts with the character before the text. -/
def token (s : Scan) (c : Char) (rest : List Char) : Except Error Scan :=
  match c with
  | '[' => s.openFlow .flowListStart
  | '\x7b' => s.openFlow .flowMapStart
  | ']' => s.closeFlow .flowListEnd
  | '\x7d' => s.closeFlow .flowMapEnd
  | ',' => s.comma
  | _ =>
    if c = '-' && startsApart rest then s.dash
    else if c = '?' && (s.inFlow || startsApart rest) then s.questionMark
    else if c = ':' && (s.inFlow || startsApart rest) then s.colon
    else if c = '*' then s.nodeProperty (Property.anchor true) (s.cursor.move 1)
    else if c = '&' then s.nodeProperty (Property.anchor false) (s.cursor.move 1)
    else if c = '!' then s.nodeProperty Property.tag s.cursor
    else if (c = '|' || c = '>') && !s.inFlow then s.block (c = '>')
    else if c = '\'' || c = '"' then s.quoted (c = '\'')
    else if isPlainStart s.inFlow c rest then s.plain
    else s.fail .badStart s.cursor.line

/-- The scan behind the comment on the line of its last token. A dash has none, nor has a scalar
that ends with its line. -/
def skipComment (s : Scan) : Scan :=
  match s.tokens.back? with
  | some ⟨.dash, _⟩ => s
  | some ⟨.scalar .., _⟩ => if s.keyAllowed then s else { s with cursor := s.cursor.skipComment }
  | _ => { s with cursor := s.cursor.skipComment }

/-- The end of the text, which is the start of a line. -/
def finish (s : Scan) : Except Error Scan := do
  let line := if s.cursor.col = 0 then s.cursor.line else s.cursor.line + 1
  let s := { s with cursor := ⟨[], line, 0⟩ }
  let s ← (s.leave fun _ => true).drop
  return { s.push .streamEnd line with isEnded := true }

/-- The scan with the tokens of one step more. -/
def step (s : Scan) : Except Error Scan := do
  let (cursor, keyAllowed) := s.cursor.toNext s.hasSpareMark s.inFlow s.keyAllowed
  let s := { s with cursor, keyAllowed }.leave (cursor.col < ·)
  match cursor.rest with
  | [] => s.finish
  | c :: rest =>
    if cursor.col = 0 && c = '%' then s.directive
    else if cursor.col = 0 && startsWord "---" (c :: rest) then s.documentMark .documentStart
    else if cursor.col = 0 && startsWord "..." (c :: rest) then s.documentMark .documentEnd
    else return (← s.token c rest).skipComment

/-- How many characters are looked at where a token starts. -/
def glance : Nat := 4

/-- The scan with the tokens of one step more, if it does not run into what is wrong behind the
text. -/
def next (s : Scan) : Except Error Scan :=
  match s.failure with
  | none => s.step
  | some e =>
    let start := (s.cursor.toNext s.hasSpareMark s.inFlow s.keyAllowed).1
    if (start.rest.drop (glance - 1)).isEmpty then .error e
    else
      match s.step with
      | .ok next => if next.cursor.rest.isEmpty then .error e else .ok next
      | .error (.problem .endOfStream _ _) => .error e
      | .error other => .error other

/-- A bound on the steps that are left. -/
def left (s : Scan) : Nat := if s.isEnded then 0 else s.cursor.rest.length + 1

/-! ## Handing out tokens -/

/-- How many tokens beyond one are looked at with it. -/
def lookahead : Nat := 2

/-- Whether the token with the given number is settled: the ones behind it are there too, and a
colon cannot make it a key. -/
def isSettled (s : Scan) (number : Nat) : Except Error Bool :=
  if s.tokens.size ≤ number + lookahead && !s.isEnded then .ok false
  else
    match ((s.level :: s.outer).find? (·.held.contains number)).bind (·.candidate) with
    | none => .ok true
    | some c =>
      if c.isLive s.cursor then .ok false
      else if c.isRequired then s.fail .missingColon c.line
      else .ok true

/-- The settled tokens from the given number on, and the error of the one behind them. -/
def settledFrom (s : Scan) (number : Nat) : List Token × Option Error :=
  if _h : number < s.tokens.size then
    match s.isSettled number with
    | .error e => ([], some e)
    | .ok false => ([], none)
    | .ok true =>
      let (tokens, error) := settledFrom s (number + 1)
      (s.tokens[number] :: tokens, error)
  else ([], none)
termination_by s.tokens.size - number

/-- The tokens that are not handed out yet, and the error that ends them. A step that does not move
on in the text is the last. -/
def run (s : Scan) : List Token × Option Error :=
  let (tokens, error) := s.settledFrom s.handed
  if error.isSome || s.isEnded then (tokens, error)
  else
    match { s with handed := s.handed + tokens.length }.next with
    | .error e => (tokens, some e)
    | .ok next =>
      if _h : next.left < s.left then
        let (more, error) := run next
        (tokens ++ more, error)
      else (tokens, none)
termination_by s.left

end Scan

/-- The tokens of a text, up to an error if there is one. -/
structure Tokens where
  list : List Token
  /-- The error behind the tokens. -/
  failure : Option Error := none

namespace Tokens

/-- The tokens of a text. A token is read only when some of those behind it are, so an error can
hide what comes shortly before it. -/
def ofText (text : Bytes) : Tokens :=
  let (rest, failure) := characters text
  let hasSpareMark := rest.head? = some '\ufeff'
  let cursor : Cursor := if hasSpareMark then { rest := rest.drop 1, col := 1 } else { rest }
  match ({ cursor, failure, hasSpareMark } : Scan).run with
  | (list, failure) => { list, failure }

end Tokens

end GetterRename.Yaml
