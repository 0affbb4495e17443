import GetterRename.Text.Bytes

/-!
# Token trees

A source file is a list of token trees: identifiers, single punctuation characters, literals,
documentation lines, and groups of trees between delimiters.

- `Pos` : where a token starts, and how bytes move a position;
- `Token` : a token tree;
- `Token.render` : a token tree as one line of text;
- `Token.weight` : the number of tokens in a tree, the measure of every recursion into groups.
-/

namespace GetterRename

/-- A place in a file: the line counts from one, the column is the byte offset in the line. -/
structure Pos where
  line : Nat
  col : Nat
  deriving DecidableEq, Repr

namespace Pos

/-- The place after a byte that stands at `p`. -/
def next (p : Pos) (b : UInt8) : Pos :=
  if b = byte '\n' then ⟨p.line + 1, 0⟩ else ⟨p.line, p.col + 1⟩

/-- The place after a text that starts at `p`. -/
def advance (p : Pos) (text : Bytes) : Pos := text.foldl next p

end Pos

/-- The three pairs of delimiters. -/
inductive Delimiter where
  | paren
  | bracket
  | brace
  deriving DecidableEq, Repr

namespace Delimiter

/-- The opening character. -/
def opener : Delimiter → Char
  | paren => '('
  | bracket => '['
  | brace => '\x7b'

/-- The closing character. -/
def closer : Delimiter → Char
  | paren => ')'
  | bracket => ']'
  | brace => '\x7d'

/-- The delimiter that the byte opens. -/
def opened? (b : UInt8) : Option Delimiter := [paren, bracket, brace].find? (byte ·.opener = b)

/-- The delimiter that the byte closes. -/
def closed? (b : UInt8) : Option Delimiter := [paren, bracket, brace].find? (byte ·.closer = b)

end Delimiter

/-- A token tree. -/
inductive Token where
  /-- An identifier or a keyword. -/
  | ident (text : Bytes) (pos : Pos)
  /-- A punctuation character; `joint` when another punctuation character follows immediately. -/
  | punct (char : UInt8) (joint : Bool) (pos : Pos)
  /-- A string, character, byte or number literal. -/
  | literal (text : Bytes) (pos : Pos)
  /-- The trees between a pair of delimiters. -/
  | group (delim : Delimiter) (tokens : List Token) (pos : Pos)
  /-- One line of a documentation comment, without its marker. -/
  | doc (text : Bytes) (pos : Pos)
  deriving Repr

namespace Token

/-- Where the token starts. -/
def pos : Token → Pos
  | ident _ p | punct _ _ p | literal _ p | group _ _ p | doc _ p => p

/-- The text of the token, empty for a group. -/
def text : Token → Bytes
  | ident text _ | literal text _ | doc text _ => text
  | punct c _ _ => [c]
  | group _ _ _ => []

/-- Whether the token is this identifier. -/
def isIdent (name : String) : Token → Bool
  | ident text _ => text == Bytes.ofString name
  | _ => false

/-- Whether the token is an identifier. -/
def isName : Token → Bool
  | ident _ _ => true
  | _ => false

/-- Whether the token is this punctuation character. -/
def isPunct (char : Char) : Token → Bool
  | punct c _ _ => c == byte char
  | _ => false

/-- Whether the token is a group. -/
def isGroup : Token → Bool
  | group _ _ _ => true
  | _ => false

/-- Whether the token is a group between these delimiters. -/
def isGroupOf (delim : Delimiter) : Token → Bool
  | group d _ _ => d == delim
  | _ => false

/-- Whether the token is a literal. -/
def isLiteral : Token → Bool
  | literal _ _ => true
  | _ => false

/-- Whether the token is a punctuation character that another one follows immediately. -/
def isJoint : Token → Bool
  | punct _ joint _ => joint
  | _ => false

mutual

/-- The token as text: the trees of a group are separated by spaces. -/
def render : Token → Bytes
  | ident text _ => text
  | punct c _ _ => [c]
  | literal text _ => text
  | doc text _ => text
  | group d tokens _ => byte d.opener :: Bytes.join " " (renderL tokens) ++ [byte d.closer]

/-- The texts of the tokens of a list. -/
def renderL : List Token → List Bytes
  | [] => []
  | t :: ts => render t :: renderL ts

end

mutual

/-- The number of tokens in a tree. -/
def weight : Token → Nat
  | group _ tokens _ => weightL tokens + 1
  | _ => 1

/-- The number of tokens in a list of trees. -/
def weightL : List Token → Nat
  | [] => 0
  | t :: ts => weight t + weightL ts

end

/-- Names of the kinds of token, by the numbers one to five. -/
def kindName (code : Int) : String :=
  if code = 1 then "ident"
  else if code = 2 then "punct"
  else if code = 3 then "literal"
  else if code = 4 then "group"
  else if code = 5 then "doc"
  else "invalid"

theorem exists_eq_of_isIdent {t : Token} {name : String} (h : t.isIdent name = true) :
    ∃ p, t = ident (Bytes.ofString name) p := by
  cases t with
  | ident text p =>
    obtain rfl : text = Bytes.ofString name := by simpa [isIdent] using h
    exact ⟨p, rfl⟩
  | _ => cases h

theorem exists_eq_of_isName {t : Token} (h : t.isName = true) : ∃ text p, t = ident text p := by
  cases t with
  | ident text p => exact ⟨text, p, rfl⟩
  | _ => cases h

theorem exists_eq_of_isPunct {t : Token} {char : Char} (h : t.isPunct char = true) :
    ∃ joint p, t = punct (byte char) joint p := by
  cases t with
  | punct c joint p =>
    obtain rfl : c = byte char := by simpa [isPunct] using h
    exact ⟨joint, p, rfl⟩
  | _ => cases h

theorem weight_pos (t : Token) : 0 < t.weight := by
  cases t <;> simp [weight]

@[simp] theorem weightL_nil : weightL [] = 0 := rfl

@[simp] theorem weightL_cons (t : Token) (ts : List Token) :
    weightL (t :: ts) = t.weight + weightL ts := rfl

@[simp] theorem weight_group (d : Delimiter) (ts : List Token) (p : Pos) :
    (group d ts p).weight = weightL ts + 1 := by simp [weight]

@[simp] theorem weightL_append (xs ys : List Token) :
    weightL (xs ++ ys) = weightL xs + weightL ys := by
  induction xs with
  | nil => simp
  | cons t ts ih => simp [ih, Nat.add_assoc]

theorem weightL_take_add_drop (n : Nat) (ts : List Token) :
    weightL (ts.take n) + weightL (ts.drop n) = weightL ts := by
  rw [← weightL_append, List.take_append_drop]

theorem weightL_drop_le (n : Nat) (ts : List Token) : weightL (ts.drop n) ≤ weightL ts := by
  have := weightL_take_add_drop n ts
  omega

end Token

end GetterRename
