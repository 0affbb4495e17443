import GetterRename.Yaml.Node
import GetterRename.Yaml.Token.Scan

/-!
# Building nodes

The first document of a text from its tokens.  The lists and maps that are still open are kept on a
stack.  A token first settles what ends before it without a token of its own, a missing value or a
list without an end; then the innermost open part takes it.

- `Frame` : an open list or map, or what is said about the next node;
- `Frame.settle`, `Stack.settle` : what ends before a token;
- `Builder.take` : a token as the innermost open part takes it;
- `Node.ofText` : the first document of a text.
-/

namespace GetterRename.Yaml

/-- What is said about a node before it starts. -/
structure Properties where
  /-- The line, counted from zero, of the first word about it. -/
  line : Nat
  anchor : Option Nat := none
  /-- The handle and the name of the tag, and the line they are on. -/
  tag : Option (Bytes × Bytes × Nat) := none
  deriving DecidableEq, Repr

/-- A list or map that starts. -/
structure Opening where
  /-- The line, counted from zero, of its first mark. -/
  line : Nat
  info : Node.Info
  deriving DecidableEq, Repr

/-- What comes next in a map. -/
inductive MapPlace where
  /-- The mark of a key, or the end. -/
  | beforeKey
  /-- A key. -/
  | atKey (line : Nat)
  /-- The mark of a value. -/
  | behindKey (key : Node)
  /-- A value. -/
  | atValue (key : Node) (line : Nat)
  /-- A key without a mark. -/
  | atBareKey
  /-- Anything, behind a key that has no value. -/
  | behindBareKey (key : Node)
  /-- A comma or the end. -/
  | between

/-- What comes next in a list. -/
inductive ListPlace where
  /-- The mark of an item, or the end. -/
  | beforeItem
  /-- An item. -/
  | atItem (line : Nat)

/-- An open part of a document. -/
inductive Frame where
  | blockMap (start : Opening) (entries : List (Node × Node)) (place : MapPlace)
  /-- A list with dashes; one that `isFlush` has them below the keys of the map around it, and no
  mark of its end. -/
  | blockList (start : Opening) (items : List Node) (place : ListPlace) (isFlush : Bool)
  | flowMap (start : Opening) (entries : List (Node × Node)) (place : MapPlace)
  | flowList (start : Opening) (items : List Node) (place : ListPlace)
  /-- A map of one entry as an item of a list in brackets. -/
  | pair (start : Opening) (place : MapPlace)
  /-- What is said about the next node, which may be a list or map outside of brackets if `isBlock`
  is set, and one with dashes below the keys around it if `mayDash` is. -/
  | properties (isBlock mayDash : Bool) (about : Properties)

/-! ## Tags -/

/-- The start of the tags that the rules of documents name. -/
def standardTags : Bytes := "tag:yaml.org,2002:"

/-- The handles that every document has. -/
def standardHandles : List (Bytes × Bytes) :=
  [(Bytes.ofString "!", Bytes.ofString "!"), (Bytes.ofString "!!", standardTags)]

/-- A tag in its short form. -/
def shortTag (tag : Bytes) : Bytes :=
  match Bytes.after? standardTags tag with
  | some name => "!!" ++ name
  | none => tag

namespace Properties

/-- The tag in its short form; the mark alone stands for none. -/
def tag? (handles : List (Bytes × Bytes)) (p : Properties) : Except Error (Option Bytes) :=
  let kept (tag : Bytes) :=
    if tag.isEmpty || tag = Bytes.ofString "!" then none else some (shortTag tag)
  match p.tag with
  | none => .ok none
  | some (handle, name, line) =>
    if handle.isEmpty then .ok (kept name)
    else
      match handles.find? (·.1 = handle) with
      | some (_, expansion) => .ok (kept (expansion ++ name))
      | none => .error (.problem .unknownHandle p.line line)

/-- What a node with these properties has, with the given tag if they have none. -/
def info (handles : List (Bytes × Bytes)) (p : Properties) (default : Bytes) :
    Except Error Node.Info :=
  (p.tag? handles).map fun tag =>
    { line := p.line + 1, tag := tag.getD default, anchor := p.anchor }

end Properties

/-! ## What ends before a token -/

/-- Whether the token belongs to a map that has a key: the mark of another one, of its value, or the
end. -/
def endsEntry : Token.Kind → Bool
  | .key | .value | .blockEnd => true
  | _ => false

/-- Whether the token is a comma or the end of a list in brackets. -/
def endsItem : Token.Kind → Bool
  | .comma | .flowListEnd => true
  | _ => false

/-- Whether the token is a comma or the end of a map in braces. -/
def endsFlowEntry : Token.Kind → Bool
  | .comma | .flowMapEnd => true
  | _ => false

/-- Whether the token starts the content of a node. -/
def startsContent (isBlock mayDash : Bool) : Token.Kind → Bool
  | .scalar .. | .flowListStart | .flowMapStart => true
  | .blockListStart | .blockMapStart => isBlock
  | .dash => mayDash
  | _ => false

/-- Whether the token says more about a node. -/
def Properties.goesOn (p : Properties) : Token.Kind → Bool
  | .anchor _ => p.anchor.isNone
  | .tag .. => p.tag.isNone
  | _ => false

/-- The entries and the place in a map before a token, with missing keys and values filled in. The
tokens with the property `isEnd` start no node, and `rest` is the place behind an entry. -/
def MapPlace.settle (place rest : MapPlace) (isEnd : Token.Kind → Bool) (token : Token)
    (entries : List (Node × Node)) : List (Node × Node) × MapPlace :=
  let behind (key : Node) :=
    if token.kind = .value then (entries, MapPlace.behindKey key)
    else (entries ++ [(key, .missing (token.line + 1))], rest)
  match place with
  | .atKey line => if isEnd token.kind then behind (.missing (line + 1)) else (entries, place)
  | .behindKey key => behind key
  | .atValue key line =>
    if isEnd token.kind then (entries ++ [(key, .missing (line + 1))], rest) else (entries, place)
  | .behindBareKey key => (entries ++ [(key, .missing (token.line + 1))], rest)
  | .beforeKey | .atBareKey | .between => (entries, place)

/-- The items and the place in a list with dashes before a token, with a missing item filled in. -/
def ListPlace.settle (place : ListPlace) (isFlush : Bool) (token : Token) (items : List Node) :
    List Node × ListPlace :=
  match place with
  | .atItem line =>
    if token.kind = .dash || token.kind = .blockEnd || (isFlush && endsEntry token.kind) then
      (items ++ [.missing (line + 1)], .beforeItem)
    else (items, place)
  | .beforeItem => (items, place)

/-- The frame before a token, or the node that ends before it. -/
def Frame.settle (handles : List (Bytes × Bytes)) (token : Token) :
    Frame → Except Error (Frame ⊕ Node)
  | blockMap start entries place =>
    let (entries, place) := place.settle .beforeKey endsEntry token entries
    .ok (.inl (blockMap start entries place))
  | blockList start items place isFlush =>
    match place.settle isFlush token items with
    | (items, .beforeItem) =>
      if isFlush && token.kind != .dash then .ok (.inr (.list start.info items))
      else .ok (.inl (blockList start items .beforeItem isFlush))
    | (items, place) => .ok (.inl (blockList start items place isFlush))
  | flowMap start entries place =>
    let isEnd (kind : Token.Kind) := kind = .value || endsFlowEntry kind
    let (entries, place) :=
      match place with
      | .atKey _ => (MapPlace.atKey token.line).settle .between isEnd token entries
      | .atValue .. => place.settle .between endsFlowEntry token entries
      | _ => place.settle .between isEnd token entries
    .ok (.inl (flowMap start entries place))
  | flowList start items place => .ok (.inl (flowList start items place))
  | pair start place =>
    match place with
    | .atKey _ => .ok (.inl (pair start place))
    | _ =>
      match place.settle .between endsItem token [] with
      | ([], place) => .ok (.inl (pair start place))
      | (entries, _) => .ok (.inr (.map start.info entries))
  | properties isBlock mayDash about =>
    if about.goesOn token.kind || startsContent isBlock mayDash token.kind then
      .ok (.inl (properties isBlock mayDash about))
    else (about.info handles (Node.defaultTag true [])).map fun info => .inr (.scalar info [])

/-- The open parts of a document, the innermost first. -/
abbrev Stack := List Frame

namespace Stack

/-- Gives a finished node to the innermost open part. A map of one entry ends with its value. The
node that belongs to no part is the document. -/
def give (node : Node) : Stack → Stack × Option Node
  | [] => ([], some node)
  | .blockMap start entries place :: rest =>
    match place with
    | .atValue key _ => (.blockMap start (entries ++ [(key, node)]) .beforeKey :: rest, none)
    | _ => (.blockMap start entries (.behindKey node) :: rest, none)
  | .blockList start items _ isFlush :: rest =>
    (.blockList start (items ++ [node]) .beforeItem isFlush :: rest, none)
  | .flowMap start entries place :: rest =>
    match place with
    | .atValue key _ => (.flowMap start (entries ++ [(key, node)]) .between :: rest, none)
    | .atBareKey => (.flowMap start entries (.behindBareKey node) :: rest, none)
    | _ => (.flowMap start entries (.behindKey node) :: rest, none)
  | .flowList start items _ :: rest =>
    (.flowList start (items ++ [node]) .beforeItem :: rest, none)
  | .pair start place :: rest =>
    match place with
    | .atValue key _ => give (.map start.info [(key, node)]) rest
    | _ => (.pair start (.behindKey node) :: rest, none)
  | .properties _ _ _ :: rest => give node rest

/-- A finished node leaves no more parts open. -/
theorem length_give_le (node : Node) (stack : Stack) :
    (give node stack).1.length ≤ stack.length := by
  induction stack generalizing node with
  | nil => simp [give]
  | cons frame rest ih =>
    cases frame with
    | blockMap start entries place => cases place <;> simp [give]
    | blockList start items place isFlush => simp [give]
    | flowMap start entries place => cases place <;> simp [give]
    | flowList start items place => simp [give]
    | pair start place =>
      cases place with
      | atValue key line => simpa [give] using Nat.le_succ_of_le (ih _)
      | _ => simp [give]
    | properties isBlock mayDash about => simpa [give] using Nat.le_succ_of_le (ih _)

/-- The open parts before a token, and the document if it ends before it. -/
def settle (handles : List (Bytes × Bytes)) (token : Token) (stack : Stack) :
    Except Error (Stack × Option Node) :=
  match stack with
  | [] => .ok ([], none)
  | frame :: rest =>
    match frame.settle handles token with
    | .error e => .error e
    | .ok (.inl frame) => .ok (frame :: rest, none)
    | .ok (.inr node) =>
      match _h : give node rest with
      | (stack, none) => settle handles token stack
      | (_, some root) => .ok ([], some root)
termination_by stack.length
decreasing_by
  have := length_give_le node rest
  simp only [_h] at this
  simp only [List.length_cons]
  omega

end Stack

/-! ## Tokens -/

/-- How far the start of a document is. -/
inductive Phase where
  | start
  | directives
  | content
  deriving DecidableEq, Repr

/-- A document while it is built. -/
structure Builder where
  stack : Stack := []
  phase : Phase := .start
  /-- The document, once it is complete. -/
  root : Option Node := none
  /-- Whether there is no more to come. -/
  isDone : Bool := false
  hasVersion : Bool := false
  /-- The handles of tags and what they stand for. -/
  handles : List (Bytes × Bytes) := []
  /-- The names of nodes and their numbers, the last ones first. -/
  anchors : List (Bytes × Nat) := []
  /-- The number of tokens so far. -/
  count : Nat := 0

namespace Builder

/-- All handles of tags. -/
def allHandles (b : Builder) : List (Bytes × Bytes) := b.handles ++ standardHandles

/-- Gives a finished node to the innermost open part. -/
def give (b : Builder) (node : Node) : Builder :=
  match b.stack.give node with
  | (stack, none) => { b with stack }
  | (_, some root) => { b with stack := [], root, isDone := true }

/-- Opens a part. -/
def push (b : Builder) (frame : Frame) : Builder := { b with stack := frame :: b.stack }

/-- Replaces the innermost open part. -/
def replace (b : Builder) (frame : Frame) : Builder := { b with stack := frame :: b.stack.drop 1 }

/-- Ends the innermost open part, which makes the given node. -/
def finish (b : Builder) (node : Node) : Builder := { b with stack := b.stack.drop 1 }.give node

/-- The content of a node about which something may have been said. -/
def content (b : Builder) (about : Properties) (token : Token) : Except Error Builder := do
  let opening (tag : String) : Except Error Opening :=
    (about.info b.allHandles tag).map (⟨token.line, ·⟩)
  match token.kind with
  | .scalar isPlain text =>
    return b.give (.scalar (← about.info b.allHandles (Node.defaultTag isPlain text)) text)
  | .flowListStart => return b.push (.flowList (← opening "!!seq") [] (.atItem token.line))
  | .flowMapStart => return b.push (.flowMap (← opening "!!map") [] .beforeKey)
  | .blockListStart => return b.push (.blockList (← opening "!!seq") [] .beforeItem false)
  | .blockMapStart => return b.push (.blockMap (← opening "!!map") [] .beforeKey)
  | .dash => return b.push (.blockList (← opening "!!seq") [] (.atItem token.line) true)
  | _ => throw (.problem .expectedContent about.line token.line)

/-- The start of a node. -/
def node (b : Builder) (isBlock mayDash : Bool) (token : Token) : Except Error Builder :=
  match token.kind with
  | .reference name =>
    match b.anchors.find? (·.1 = name) with
    | some (_, number) => .ok (b.give (.reference (token.line + 1) name number b.count))
    | none => .error (.unknownAnchor name)
  | .anchor name =>
    let about : Properties := { line := token.line, anchor := some b.count }
    .ok { b.push (.properties isBlock mayDash about) with anchors := (name, b.count) :: b.anchors }
  | .tag handle name =>
    let about : Properties := { line := token.line, tag := (handle, name, token.line) }
    .ok (b.push (.properties isBlock mayDash about))
  | kind =>
    if startsContent isBlock mayDash kind then b.content { line := token.line } token
    else .error (.problem .expectedContent token.line token.line)

/-- A line before a document that starts with `%`. -/
def directive (b : Builder) (token : Token) : Except Error Builder :=
  let fail (cause : Problem) : Except Error Builder := .error (.problem cause 0 token.line)
  match token.kind with
  | .version major minor =>
    if b.hasVersion then fail .repeatedVersion
    else if major != 1 || minor != 1 then fail .otherVersion
    else .ok { b with hasVersion := true, phase := .directives }
  | .handle name expansion =>
    if b.handles.any (·.1 = name) then fail .repeatedHandle
    else .ok { b with handles := b.handles ++ [(name, expansion)], phase := .directives }
  | _ => fail .documentStart

/-- Whether the token ends a document of which nothing but the start is there. -/
def endsEmpty (b : Builder) (token : Token) : Bool :=
  b.stack.isEmpty && b.phase = .content &&
    match token.kind with
    | .version .. | .handle .. | .documentStart | .documentEnd | .streamEnd => true
    | _ => false

/-- A token outside of all open parts. -/
def document (b : Builder) (token : Token) : Except Error Builder :=
  match b.phase, token.kind with
  | .start, .streamEnd => .ok { b with isDone := true }
  | .start, .version .. | .start, .handle .. => b.directive token
  | .start, .documentStart | .directives, .documentStart => .ok { b with phase := .content }
  | .directives, _ => b.directive token
  | _, _ => b.node true false token

/-- A token as a map outside of brackets takes it. -/
def inBlockMap (b : Builder) (start : Opening) (entries : List (Node × Node)) (place : MapPlace)
    (token : Token) : Except Error Builder :=
  match place with
  | .atKey _ | .atValue .. => b.node true true token
  | .behindKey key => .ok (b.replace (.blockMap start entries (.atValue key token.line)))
  | _ =>
    match token.kind with
    | .key => .ok (b.replace (.blockMap start entries (.atKey token.line)))
    | .blockEnd => .ok (b.finish (.map start.info entries))
    | _ => .error (.problem .expectedKey start.line token.line)

/-- A token as a list outside of brackets takes it. -/
def inBlockList (b : Builder) (start : Opening) (items : List Node) (place : ListPlace)
    (isFlush : Bool) (token : Token) : Except Error Builder :=
  match place, token.kind with
  | .atItem _, _ => b.node true false token
  | .beforeItem, .dash => .ok (b.replace (.blockList start items (.atItem token.line) isFlush))
  | .beforeItem, .blockEnd => .ok (b.finish (.list start.info items))
  | .beforeItem, _ => .error (.problem .expectedDash start.line token.line)

/-- A token as a map in braces takes it. -/
def inFlowMap (b : Builder) (start : Opening) (entries : List (Node × Node)) (place : MapPlace)
    (token : Token) : Except Error Builder :=
  match place, token.kind with
  | .atKey _, _ | .atValue .., _ => b.node false false token
  | .behindKey key, _ => .ok (b.replace (.flowMap start entries (.atValue key token.line)))
  | _, .flowMapEnd => .ok (b.finish (.map start.info entries))
  | .between, .comma => .ok (b.replace (.flowMap start entries .beforeKey))
  | .between, _ => .error (.problem .expectedMapEnd start.line token.line)
  | _, .key => .ok (b.replace (.flowMap start entries (.atKey token.line)))
  | _, _ => (b.replace (.flowMap start entries .atBareKey)).node false false token

/-- A token as a list in brackets takes it. -/
def inFlowList (b : Builder) (start : Opening) (items : List Node) (place : ListPlace)
    (token : Token) : Except Error Builder :=
  match place, token.kind with
  | _, .flowListEnd => .ok (b.finish (.list start.info items))
  | .beforeItem, .comma => .ok (b.replace (.flowList start items (.atItem token.line)))
  | .beforeItem, _ => .error (.problem .expectedListEnd start.line token.line)
  | .atItem _, .key =>
    let info : Node.Info := { line := token.line + 1, tag := "!!map" }
    .ok (b.push (.pair ⟨token.line, info⟩ (.atKey token.line)))
  | .atItem _, _ => b.node false false token

/-- A token as a map of one entry takes it. In place of a key it takes what ends the key too. -/
def inPair (b : Builder) (start : Opening) (place : MapPlace) (token : Token) :
    Except Error Builder :=
  match place with
  | .behindKey key => .ok (b.replace (.pair start (.atValue key token.line)))
  | .atKey _ =>
    if token.kind = .value || endsItem token.kind then
      .ok (b.replace (.pair start (.behindKey (.missing (token.line + 1)))))
    else b.node false false token
  | _ => b.node false false token

/-- More that is said about the next node, or its content. -/
def inProperties (b : Builder) (isBlock mayDash : Bool) (about : Properties) (token : Token) :
    Except Error Builder :=
  match token.kind with
  | .anchor name =>
    let about := { about with anchor := some b.count }
    .ok { b.replace (.properties isBlock mayDash about) with
      anchors := (name, b.count) :: b.anchors }
  | .tag handle name =>
    .ok (b.replace (.properties isBlock mayDash { about with tag := (handle, name, token.line) }))
  | _ => { b with stack := b.stack.drop 1 }.content about token

/-- A token as the innermost open part takes it. -/
def take (b : Builder) (token : Token) : Except Error Builder :=
  match b.stack with
  | [] => b.document token
  | .blockMap start entries place :: _ => b.inBlockMap start entries place token
  | .blockList start items place isFlush :: _ => b.inBlockList start items place isFlush token
  | .flowMap start entries place :: _ => b.inFlowMap start entries place token
  | .flowList start items place :: _ => b.inFlowList start items place token
  | .pair start place :: _ => b.inPair start place token
  | .properties isBlock mayDash about :: _ => b.inProperties isBlock mayDash about token

/-- The document that the tokens build, or the error behind them. The token behind the document is
looked at too. -/
def run (failure : Option Error) (b : Builder) : List Token → Except Error (Option Node)
  | [] =>
    match failure with
    | some e => .error e
    | none => .ok b.root
  | token :: rest => do
    if b.isDone then return b.root
    if b.endsEmpty token then return some (.missing (token.line + 1))
    match ← b.stack.settle b.allHandles token with
    | (_, some root) => return some root
    | (stack, none) =>
      let next ← { b with stack }.take token
      run failure { next with count := b.count + 1 } rest

end Builder

/-- The first document of a text, if it has one. -/
def Node.ofText (text : Bytes) : Except Error (Option Node) :=
  let tokens := Tokens.ofText text
  ({} : Builder).run tokens.failure tokens.list

end GetterRename.Yaml
