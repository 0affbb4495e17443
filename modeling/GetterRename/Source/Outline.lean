import GetterRename.Source.Nesting
import GetterRename.Source.Node
import GetterRename.Source.TypeName

/-!
# Reading the outline

The outline of a token list is read in steps.  A step looks at the head of the list, recognises a
construct or skips something it does not understand, and leaves a shorter list; what stands inside
a construct is read in the same way.  No step fails, so only lexical errors are reported.

- `Step` : what a step recognises, with the tokens inside it still unread;
- `Outline.step` : one step;
- `Outline.read` : the nodes of a token list;
- `Outline.ofSource` : the nodes of a file.
-/

namespace GetterRename

/-- What one step of reading recognises. -/
inductive Step where
  | nothing
  /-- Nodes with nothing inside them. -/
  | leaves (nodes : List Node)
  /-- Tokens whose nodes stand here directly. -/
  | transparent (tokens : List Token)
  /-- A construct and the tokens inside it. -/
  | construct (head : Construct) (tokens : List Token)
  deriving Repr

namespace Step

/-- The tokens that a step leaves to be read inside what it recognises. -/
def inside : Step → List Token
  | nothing | leaves _ => []
  | transparent tokens | construct _ tokens => tokens

/-- The nodes of a step, from the nodes of the tokens inside it. -/
def nodes (inner : List Node) : Step → List Node
  | nothing => []
  | leaves nodes => nodes
  | transparent _ => inner
  | construct head _ => [.construct head inner]

end Step

namespace Outline

/-! ## Words -/

/-- The words that name no function: keywords of the language. -/
def keywords : List Bytes :=
  ["as", "async", "await", "break", "const", "continue", "crate", "dyn", "else", "enum", "extern",
    "false", "fn", "for", "if", "impl", "in", "let", "loop", "match", "mod", "move", "mut", "pub",
    "ref", "return", "self", "Self", "static", "struct", "super", "trait", "true", "type",
    "unsafe", "use", "where", "while", "yield", "union", "macro_rules"].map Bytes.ofString

/-- The words that can follow an item qualifier. -/
def qualified : List Bytes :=
  ["fn", "impl", "trait", "unsafe", "async", "extern", "const", "type"].map Bytes.ofString

/-- Whether the token qualifies the item behind it. -/
def isQualifier (t : Token) : Bool :=
  t.isIdent "const" || t.isIdent "async" || t.isIdent "unsafe" || t.isIdent "default"
    || t.isIdent "auto"

/-- Whether the token ends the header of an item: a block or a semicolon. -/
def endsHeader (t : Token) : Bool := t.isGroupOf .brace || t.isPunct ';'

/-- Whether the token ends the type and bounds of an `impl` header. -/
def endsImplType (t : Token) : Bool := t.isGroupOf .brace || t.isIdent "where" || t.isPunct ';'

/-- Whether the token ends a type. -/
def endsType (t : Token) : Bool := endsImplType t || t.isPunct '='

/-! ## Documentation attributes -/

/-- The content of a string literal, its escapes as they are written. -/
def unquote (lit : Bytes) : Bytes :=
  let lit := if lit.head? = some (byte 'r') then Bytes.trim (· == byte '#') (lit.drop 1) else lit
  Bytes.dropTail "\"" (Bytes.dropHead "\"" lit)

/-- A line of a documentation string with its quote and backslash escapes decoded. A backslash at
its end continues the line and is dropped; other escapes stay as they are written. -/
def unescape : Bytes → Bytes
  | [] => []
  | [b] => if b = byte '\\' then [] else [b]
  | b :: c :: rest =>
    if b = byte '\\' then
      if c = byte '\\' || c = byte '"' || c = byte '\'' then c :: unescape rest
      else b :: c :: unescape rest
    else b :: unescape (c :: rest)

/-- The documentation lines of the literal of a `#[doc = ...]` attribute on line `line`. -/
def docLines (lit : Bytes) (line : Nat) : List Node :=
  let isRaw := lit.head? = some (byte 'r')
  (Bytes.splitOn (byte '\n') (unquote lit)).mapIdx fun i text =>
    let text := Bytes.dropTail "\r" text
    .doc ⟨if isRaw then text else unescape text, line + i⟩

/-- The documentation lines of the content of an attribute. -/
def attributeDocs : List Token → List Node
  | [a, b, .literal lit p] => if a.isIdent "doc" && b.isPunct '=' then docLines lit p.line else []
  | _ => []

/-- An attribute whose `#` stands before `rest`. Only documentation is kept. -/
def attributeAt (rest : List Token) : Step × List Token :=
  let body := if rest.head?.any (·.isPunct '!') then rest.drop 1 else rest
  match body with
  | .group .bracket content _ :: after => (.leaves (attributeDocs content), after)
  | _ => (.nothing, rest)

/-! ## Calls -/

/-- Whether `::<...>` stands at the head of the list, and what follows it. -/
def turbofish : List Token → Bool × List Token
  | a :: b :: c :: rest =>
    if a.isPunct ':' && b.isPunct ':' && c.isPunct '<' then (true, (Angle.span (c :: rest)).2)
    else (false, a :: b :: c :: rest)
  | tokens => (false, tokens)

/-- A method call, a field or a range whose `.` stands before `rest`. -/
def dotAt (joint : Bool) (rest : List Token) : Step × List Token :=
  if joint && rest.head?.any (·.isPunct '.') then (.nothing, rest.dropWhile (·.isPunct '.'))
  else
    match rest with
    | .ident name p :: after =>
      let (fish, behind) := turbofish after
      match behind with
      | .group .paren args _ :: after =>
        (.construct (.methodCall ⟨⟨name, p⟩, fish, !args.isEmpty⟩) args, after)
      | _ => (.nothing, behind)
    | _ => (.nothing, rest)

/-- A path call whose last name stands before `rest`. -/
def pathCall (name : Ident) (rest : List Token) : Step × List Token :=
  let (fish, behind) := turbofish rest
  match behind with
  | .group .paren args _ :: after =>
    (.construct (.call ⟨name, fish, !args.isEmpty⟩) args, after)
  | _ => (.nothing, rest)

/-! ## Items -/

/-- The number of tokens of the visibility or the qualifier `t` that stands before `rest`, `0` if it
is neither. -/
def qualifierSize (t : Token) (rest : List Token) : Nat :=
  if t.isIdent "pub" then if rest.head?.any (·.isGroupOf .paren) then 2 else 1
  else if isQualifier t then
    if rest.head?.any fun next => next.isName && qualified.contains next.text then 1 else 0
  else if t.isIdent "extern" then
    if rest.head?.any (·.isLiteral) && rest[1]?.any (·.isIdent "fn") then 2
    else if rest.head?.any (·.isIdent "fn") then 1
    else 0
  else 0

/-- The list behind visibility and qualifiers. `skip` counts the tokens of one already found. -/
def skipQualifiersFrom : Nat → List Token → List Token
  | _, [] => []
  | skip + 1, _ :: rest => skipQualifiersFrom skip rest
  | 0, t :: rest =>
    match qualifierSize t rest with
    | 0 => t :: rest
    | n + 1 => skipQualifiersFrom n rest

/-- The list behind visibility and qualifiers such as `pub(crate) const unsafe`. -/
def skipQualifiers (tokens : List Token) : List Token := skipQualifiersFrom 0 tokens

/-- The generic parameters at the head of the list, and what follows them. -/
def generics (tokens : List Token) : List (List Token) × List Token :=
  if tokens.head?.any (·.isPunct '<') then
    let (params, after) := Angle.span tokens
    (Angle.split ',' (params.drop 1).dropLast, after)
  else ([], tokens)

/-- The return type at the head of the list, and what follows it. -/
def output : List Token → List Token × List Token
  | a :: b :: rest =>
    if a.isPunct '-' && b.isPunct '>' then Angle.spanUntil endsType rest else ([], a :: b :: rest)
  | tokens => ([], tokens)

/-- The list behind a `where` clause. -/
def skipWhere (tokens : List Token) : List Token :=
  if tokens.head?.any (·.isIdent "where") then tokens.dropWhile (!endsHeader ·) else tokens

/-- A function whose name stands before `rest`. -/
def fnAt (name : Ident) (rest : List Token) : Step × List Token :=
  let (params, rest) := generics rest
  match rest with
  | .group .paren inputs _ :: rest =>
    let (result, rest) := output rest
    let head := .fn ⟨name, params, Angle.split ',' inputs, result⟩
    match skipWhere rest with
    | .group .brace body _ :: after => (.construct head body, after)
    | t :: after => (.construct head [], if t.isPunct ';' then after else t :: after)
    | [] => (.construct head [], [])
  | _ => (.nothing, rest)

/-- The number of tokens before the `for` that separates the trait from the type. A `for` before
`<` starts a higher-ranked bound instead. -/
def forIndex? (last : Option Token) (depth : Nat) : List Token → Option Nat
  | [] => none
  | t :: rest =>
    let depth' := Angle.step last t depth
    if depth' = 0 && t.isIdent "for" && !rest.head?.any (·.isPunct '<') then some 0
    else (forIndex? (some t) depth' rest).map (· + 1)

/-- The trait and the type of an `impl` header. -/
def implHead (header : List Token) : Construct :=
  match forIndex? none 0 header with
  | some i =>
    let name := TypeName.lastSegment (header.take i)
    .impl (if name.isEmpty then none else some name) (TypeName.format (header.drop (i + 1)))
  | none => .impl none (TypeName.format header)

/-- An `impl` block whose keyword stands before `rest`. -/
def implAt (rest : List Token) : Step × List Token :=
  let (header, behind) := Angle.spanUntil endsImplType (generics rest).2
  match behind.dropWhile (!endsHeader ·) with
  | .group .brace items _ :: after =>
    if header.isEmpty then (.nothing, rest) else (.construct (implHead header) items, after)
  | _ => (.nothing, rest)

/-- A trait whose name stands before `rest`. A trait alias is skipped. -/
def traitAt (name : Bytes) (rest : List Token) : Step × List Token :=
  match rest.dropWhile (!endsHeader ·) with
  | .group .brace items _ :: after => (.construct (.trait name) items, after)
  | after => (.nothing, after.drop 1)

/-- A module whose name stands before `rest`. -/
def moduleAt (name : Bytes) (rest : List Token) : Step × List Token :=
  match rest with
  | .group .brace items _ :: after => (.construct (.module name) items, after)
  | _ => (.nothing, rest)

/-- The value of a constant at the head of the list, and what follows it. -/
def value (tokens : List Token) : List Token × List Token :=
  if tokens.head?.any (·.isPunct '=') then
    ((tokens.drop 1).takeWhile (!Token.isPunct ';' ·), (tokens.drop 1).dropWhile (!Token.isPunct ';' ·))
  else ([], tokens)

/-- A constant whose name and colon stand before `rest`. -/
def constantAt (name : Bytes) (isStatic : Bool) (rest : List Token) : Step × List Token :=
  let (expr, after) := value (Angle.spanUntil endsType rest).2
  (.construct (.const name isStatic) expr,
    if after.head?.any (·.isPunct ';') then after.drop 1 else after)

/-- A name and a colon at the head of the list, and what follows them. -/
def declared? : List Token → Option (Bytes × List Token)
  | .ident name _ :: colon :: rest => if colon.isPunct ':' then some (name, rest) else none
  | _ => none

/-- The list behind a foreign block, which declares no getter. -/
def skipForeign (rest : List Token) : List Token :=
  let rest := if rest.head?.any (·.isLiteral) then rest.drop 1 else rest
  if rest.head?.any (·.isGroupOf .brace) then rest.drop 1 else rest

/-- The item whose keyword `t` stands before `rest`, if `t` starts one. -/
def item? (t : Token) (rest : List Token) : Option (Step × List Token) :=
  if t.isIdent "fn" then
    match rest with
    | .ident name p :: after => some (fnAt ⟨name, p⟩ after)
    | _ => none
  else if t.isIdent "impl" then some (implAt rest)
  else if t.isIdent "trait" then
    match rest with
    | .ident name _ :: after => some (traitAt name after)
    | _ => none
  else if t.isIdent "mod" then
    match rest with
    | .ident name _ :: after => some (moduleAt name after)
    | _ => none
  else if t.isIdent "const" then
    (declared? rest).map fun (name, after) => constantAt name false after
  else if t.isIdent "static" then
    if rest.head?.any (·.isIdent "mut") && (declared? (rest.drop 1)).isSome then
      (declared? (rest.drop 1)).map fun (name, after) => constantAt name true after
    else (declared? rest).map fun (name, after) => constantAt name true after
  else if t.isIdent "struct" || t.isIdent "enum" || t.isIdent "union" || t.isIdent "type" then
    -- the name of a tuple struct is no call
    match rest with
    | .ident _ _ :: after => some (.nothing, after)
    | _ => none
  else if t.isIdent "use" || (t.isIdent "extern" && rest.head?.any (·.isIdent "crate")) then
    some (.nothing, (rest.dropWhile (!Token.isPunct ';' ·)).drop 1)
  else if t.isIdent "extern" then some (.nothing, skipForeign rest)
  else none

/-- A macro definition or invocation whose first word stands before `rest`. -/
def macroUse? (word : Ident) (rest : List Token) : Option (Step × List Token) :=
  match rest with
  | bang :: .ident name _ :: .group _ body _ :: after =>
    if word.text = Bytes.ofString "macro_rules" && bang.isPunct '!' then
      some (.leaves [.macroUse ⟨name, true, word.pos.line, body⟩], after)
    else none
  | bang :: .group _ body _ :: after =>
    if !keywords.contains word.text && bang.isPunct '!' && !bang.isJoint then
      some (.leaves [.macroUse ⟨word.text, false, word.pos.line, body⟩], after)
    else none
  | _ => none

/-- What starts with the word `word` that stands before `rest`. -/
def word (word : Ident) (rest : List Token) : Step × List Token :=
  match macroUse? word rest with
  | some found => found
  | none =>
    let start := skipQualifiers (.ident word.text word.pos :: rest)
    match start.head?.bind (item? · (start.drop 1)) with
    | some found => found
    | none =>
      if start.length ≠ rest.length + 1 then (.nothing, start)
      else if keywords.contains word.text then (.nothing, rest)
      else pathCall word rest

/-- What starts with the token `t` that stands before `rest`, and the list behind it. -/
def step (t : Token) (rest : List Token) : Step × List Token :=
  match t with
  | .doc text p => (.leaves [.doc ⟨text, p.line⟩], rest)
  | .group _ tokens _ => (.transparent tokens, rest)
  | .punct c joint _ =>
    if c = byte '#' then attributeAt rest
    else if c = byte '.' then dotAt joint rest
    else (.nothing, rest)
  | .ident text p => word ⟨text, p⟩ rest
  | .literal _ _ => (.nothing, rest)

/-! ## Every step shortens the list -/

/-- The tokens that a step leaves to be read, inside what it recognises and behind it. -/
def left (r : Step × List Token) : Nat := Token.weightL r.1.inside + Token.weightL r.2

theorem weightL_dropWhile_le (p : Token → Bool) (ts : List Token) :
    Token.weightL (ts.dropWhile p) ≤ Token.weightL ts := by
  induction ts with
  | nil => simp
  | cons t ts ih =>
    simp only [List.dropWhile_cons]
    split
    · simp only [Token.weightL_cons]; omega
    · simp

theorem weightL_splitAt (n : Nat) (ts : List Token) :
    Token.weightL (ts.splitAt n).1 + Token.weightL (ts.splitAt n).2 = Token.weightL ts := by
  simp [List.splitAt_eq, Token.weightL_take_add_drop]

theorem weightL_span (ts : List Token) :
    Token.weightL (Angle.span ts).1 + Token.weightL (Angle.span ts).2 = Token.weightL ts :=
  weightL_splitAt _ ts

theorem weightL_spanUntil (stop : Token → Bool) (ts : List Token) :
    Token.weightL (Angle.spanUntil stop ts).1 + Token.weightL (Angle.spanUntil stop ts).2
      = Token.weightL ts :=
  weightL_splitAt _ ts

theorem left_attributeAt_le (rest : List Token) : left (attributeAt rest) ≤ Token.weightL rest := by
  simp only [attributeAt]
  have hd := Token.weightL_drop_le 1 rest
  split
  · rename_i h
    simp only [left, Step.inside, Token.weightL_nil]
    split at h
    · simp only [h, Token.weightL_cons] at hd; omega
    · simp only [h, Token.weightL_cons]; omega
  · simp [left, Step.inside]

theorem weightL_turbofish_le (ts : List Token) :
    Token.weightL (turbofish ts).2 ≤ Token.weightL ts := by
  unfold turbofish
  split
  · rename_i a b c rest
    have := weightL_span (c :: rest)
    split
    · simp only [Token.weightL_cons] at *; omega
    · simp
  · simp

theorem left_dotAt_le (joint : Bool) (rest : List Token) :
    left (dotAt joint rest) ≤ Token.weightL rest := by
  simp only [dotAt]
  have hd := weightL_dropWhile_le (·.isPunct '.') rest
  split
  · simpa [left, Step.inside] using hd
  · split
    · rename_i name p after _
      have ht := weightL_turbofish_le after
      split
      · rename_i h
        simp only [h, Token.weightL_cons, Token.weight_group] at ht
        simp only [left, Step.inside, Token.weightL_cons]
        omega
      · simp only [left, Step.inside, Token.weightL_cons, Token.weightL_nil]
        omega
    · simp [left, Step.inside]

theorem left_pathCall_le (name : Ident) (rest : List Token) :
    left (pathCall name rest) ≤ Token.weightL rest := by
  simp only [pathCall]
  have ht := weightL_turbofish_le rest
  split
  · rename_i h
    simp only [h, Token.weightL_cons, Token.weight_group] at ht
    simp only [left, Step.inside]
    omega
  · simp [left, Step.inside]

theorem skipQualifiersFrom_suffix (n : Nat) (ts : List Token) :
    skipQualifiersFrom n ts <:+ ts := by
  fun_induction skipQualifiersFrom n ts with
  | case1 => exact List.suffix_refl _
  | case2 _ t _ ih => exact ih.trans (List.suffix_cons t _)
  | case3 => exact List.suffix_refl _
  | case4 t _ _ _ ih => exact ih.trans (List.suffix_cons t _)

theorem skipQualifiers_suffix (ts : List Token) : skipQualifiers ts <:+ ts :=
  skipQualifiersFrom_suffix 0 ts

theorem weightL_le_of_suffix {xs ys : List Token} (h : xs <:+ ys) :
    Token.weightL xs ≤ Token.weightL ys := by
  obtain ⟨zs, rfl⟩ := h
  simp

theorem length_le_weightL (ts : List Token) : ts.length ≤ Token.weightL ts := by
  induction ts with
  | nil => simp
  | cons t ts ih => have := t.weight_pos; simp; omega

theorem weightL_lt_of_suffix {xs ys : List Token} (h : xs <:+ ys) (hl : xs.length ≠ ys.length) :
    Token.weightL xs < Token.weightL ys := by
  obtain ⟨zs, rfl⟩ := h
  have := length_le_weightL zs
  simp at hl
  simp
  have : zs.length ≠ 0 := by simpa using hl
  omega

theorem weightL_generics_le (ts : List Token) :
    Token.weightL (generics ts).2 ≤ Token.weightL ts := by
  simp only [generics]
  have := weightL_span ts
  split
  · simp only; omega
  · simp

theorem weightL_output_le (ts : List Token) : Token.weightL (output ts).2 ≤ Token.weightL ts := by
  unfold output
  split
  · rename_i a b rest
    have := weightL_spanUntil endsType rest
    split
    · simp only [Token.weightL_cons]; omega
    · simp
  · simp

theorem weightL_skipWhere_le (ts : List Token) :
    Token.weightL (skipWhere ts) ≤ Token.weightL ts := by
  unfold skipWhere
  split
  · exact weightL_dropWhile_le _ _
  · simp

theorem left_fnAt_le (name : Ident) (rest : List Token) :
    left (fnAt name rest) ≤ Token.weightL rest := by
  simp only [fnAt]
  have hg := weightL_generics_le rest
  split
  · rename_i inputs p after h
    have ho := weightL_output_le after
    have hw := weightL_skipWhere_le (output after).2
    simp only [h, Token.weightL_cons, Token.weight_group] at hg
    split
    · rename_i h'
      simp only [h', Token.weightL_cons, Token.weight_group] at hw
      simp only [left, Step.inside]
      omega
    · rename_i t behind _ h'
      simp only [h', Token.weightL_cons] at hw
      simp only [left, Step.inside, Token.weightL_nil]
      split
      · omega
      · simp only [Token.weightL_cons]; omega
    · simp [left, Step.inside]
  · simp only [left, Step.inside, Token.weightL_nil]
    omega

theorem left_implAt_le (rest : List Token) : left (implAt rest) ≤ Token.weightL rest := by
  simp only [implAt]
  have hg := weightL_generics_le rest
  have hs := weightL_spanUntil endsImplType (generics rest).2
  have hd := weightL_dropWhile_le (!endsHeader ·) (Angle.spanUntil endsImplType (generics rest).2).2
  split
  · rename_i h
    simp only [h, Token.weightL_cons, Token.weight_group] at hd
    split
    · simp [left, Step.inside]
    · simp only [left, Step.inside]
      omega
  · simp [left, Step.inside]

theorem left_traitAt_le (name : Bytes) (rest : List Token) :
    left (traitAt name rest) ≤ Token.weightL rest := by
  simp only [traitAt]
  have hd := weightL_dropWhile_le (!endsHeader ·) rest
  split
  · rename_i h
    simp only [h, Token.weightL_cons, Token.weight_group] at hd
    simp only [left, Step.inside]
    omega
  · have := Token.weightL_drop_le 1 (rest.dropWhile (!endsHeader ·))
    simp only [left, Step.inside, Token.weightL_nil]
    omega

theorem left_moduleAt_le (name : Bytes) (rest : List Token) :
    left (moduleAt name rest) ≤ Token.weightL rest := by
  unfold moduleAt
  split
  · simp only [left, Step.inside, Token.weightL_cons, Token.weight_group]; omega
  · simp [left, Step.inside]

theorem weightL_value (ts : List Token) :
    Token.weightL (value ts).1 + Token.weightL (value ts).2 ≤ Token.weightL ts := by
  simp only [value]
  split
  · rw [← Token.weightL_append, List.takeWhile_append_dropWhile]
    exact Token.weightL_drop_le 1 ts
  · simp

theorem left_constantAt_le (name : Bytes) (isStatic : Bool) (rest : List Token) :
    left (constantAt name isStatic rest) ≤ Token.weightL rest := by
  simp only [constantAt, left, Step.inside]
  have hs := weightL_spanUntil endsType rest
  have hv := weightL_value (Angle.spanUntil endsType rest).2
  have hd := Token.weightL_drop_le 1 (value (Angle.spanUntil endsType rest).2).2
  split <;> omega

theorem weightL_declared?_le {ts rest : List Token} {name : Bytes}
    (h : declared? ts = some (name, rest)) : Token.weightL rest ≤ Token.weightL ts := by
  unfold declared? at h
  split at h
  · split at h
    · simp only [Option.some.injEq, Prod.mk.injEq] at h
      simp only [← h.2, Token.weightL_cons]
      omega
    · simp at h
  · simp at h

theorem weightL_skipForeign_le (rest : List Token) :
    Token.weightL (skipForeign rest) ≤ Token.weightL rest := by
  simp only [skipForeign]
  have := Token.weightL_drop_le 1 rest
  split <;> split <;>
    first
    | exact Nat.le_trans (Token.weightL_drop_le 1 _) (Token.weightL_drop_le 1 _)
    | exact Token.weightL_drop_le 1 _
    | exact Nat.le_refl _

theorem left_item?_le {t : Token} {rest : List Token} {r : Step × List Token}
    (h : item? t rest = some r) : left r ≤ Token.weightL rest := by
  unfold item? at h
  split at h
  · split at h
    · simp only [Option.some.injEq] at h
      subst h
      refine Nat.le_trans (left_fnAt_le _ _) ?_
      simp
    · simp at h
  split at h
  · simp only [Option.some.injEq] at h
    subst h
    exact left_implAt_le _
  split at h
  · split at h
    · simp only [Option.some.injEq] at h
      subst h
      refine Nat.le_trans (left_traitAt_le _ _) ?_
      simp
    · simp at h
  split at h
  · split at h
    · simp only [Option.some.injEq] at h
      subst h
      refine Nat.le_trans (left_moduleAt_le _ _) ?_
      simp
    · simp at h
  split at h
  · obtain ⟨⟨name, after⟩, hd, rfl⟩ := Option.map_eq_some_iff.1 h
    exact Nat.le_trans (left_constantAt_le _ _ _) (weightL_declared?_le hd)
  split at h
  · split at h
    · obtain ⟨⟨name, after⟩, hd, rfl⟩ := Option.map_eq_some_iff.1 h
      exact Nat.le_trans (left_constantAt_le _ _ _)
        (Nat.le_trans (weightL_declared?_le hd) (Token.weightL_drop_le 1 rest))
    · obtain ⟨⟨name, after⟩, hd, rfl⟩ := Option.map_eq_some_iff.1 h
      exact Nat.le_trans (left_constantAt_le _ _ _) (weightL_declared?_le hd)
  split at h
  · split at h
    · simp only [Option.some.injEq] at h
      subst h
      simp [left, Step.inside]
    · simp at h
  split at h
  · simp only [Option.some.injEq] at h
    subst h
    simpa [left, Step.inside] using
      Nat.le_trans (Token.weightL_drop_le 1 _) (weightL_dropWhile_le (!Token.isPunct ';' ·) rest)
  split at h
  · simp only [Option.some.injEq] at h
    subst h
    simpa [left, Step.inside] using weightL_skipForeign_le rest
  · simp at h

theorem left_macroUse?_le {name : Ident} {rest : List Token} {r : Step × List Token}
    (h : macroUse? name rest = some r) : left r ≤ Token.weightL rest := by
  unfold macroUse? at h
  split at h
  · split at h
    · simp only [Option.some.injEq] at h
      subst h
      simp only [left, Step.inside, Token.weightL_nil, Token.weightL_cons]
      omega
    · simp at h
  · split at h
    · simp only [Option.some.injEq] at h
      subst h
      simp only [left, Step.inside, Token.weightL_nil, Token.weightL_cons]
      omega
    · simp at h
  · simp at h

theorem left_word_le (name : Ident) (rest : List Token) :
    left (word name rest) ≤ Token.weightL rest := by
  unfold word
  split
  · rename_i h
    exact left_macroUse?_le h
  · have hs := skipQualifiers_suffix (.ident name.text name.pos :: rest)
    have hw := weightL_le_of_suffix hs
    simp only
    split
    · rename_i found hf
      cases hq : skipQualifiers (.ident name.text name.pos :: rest) with
      | nil => simp [hq] at hf
      | cons t ts =>
        simp only [hq, List.head?_cons, Option.bind_some, List.drop_succ_cons, List.drop_zero] at hf
        have := left_item?_le hf
        have := t.weight_pos
        simp only [hq, Token.weightL_cons, Token.weight] at hw
        omega
    · split
      · rename_i hl
        have := weightL_lt_of_suffix hs (by simpa using hl)
        simp only [Token.weightL_cons, Token.weight] at this
        simp only [left, Step.inside, Token.weightL_nil]
        omega
      · split
        · simp [left, Step.inside]
        · exact left_pathCall_le name rest

/-- A step leaves fewer tokens than it is given. -/
theorem left_step_lt (t : Token) (rest : List Token) :
    left (step t rest) < t.weight + Token.weightL rest := by
  have ht := t.weight_pos
  unfold step
  split
  · simp [left, Step.inside, Token.weight]
  · simp only [left, Step.inside, Token.weight_group]; omega
  · split
    · have := left_attributeAt_le rest; omega
    · split
      · rename_i joint _ _ _
        have := left_dotAt_le joint rest
        omega
      · simp [left, Step.inside, Token.weight]
  · rename_i text p
    have := left_word_le ⟨text, p⟩ rest
    omega
  · simp [left, Step.inside, Token.weight]

/-! ## Reading -/

/-- The nodes of a token list, in source order. -/
def read (tokens : List Token) : List Node :=
  match tokens with
  | [] => []
  | t :: rest =>
    let found := step t rest
    found.1.nodes (read found.1.inside) ++ read found.2
termination_by Token.weightL tokens
decreasing_by
  all_goals
    have := left_step_lt t rest
    simp only [left] at this
    simp only [Token.weightL_cons]
    omega

/-- The nodes of a file. -/
def ofSource (src : Bytes) : Except SyntaxError (List Node) := (Token.lex src).map read

end Outline

end GetterRename
