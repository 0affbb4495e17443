import GetterRename.Source.Token

/-!
# Angle brackets

Angle brackets are plain punctuation, so their nesting is counted along a token list.  The `>` of
`->` and `=>` closes nothing, and a `>` without its `<` is ignored.

- `Angle.step` : the depth after one more token;
- `Angle.span` : a bracketed list and what follows it;
- `Angle.split` : the parts of a list between separators outside of angle brackets.
-/

namespace GetterRename.Angle

/-- Whether the token is the first half of an arrow. -/
def isArrowHead (t : Token) : Bool := t.isJoint && (t.isPunct '-' || t.isPunct '=')

/-- The depth after the token `t` that follows `last`. -/
def step (last : Option Token) (t : Token) (depth : Nat) : Nat :=
  if t.isPunct '<' then depth + 1
  else if t.isPunct '>' && !last.any isArrowHead then depth - 1
  else depth

/-- The number of tokens from here up to and including the one that brings the depth to zero, all
of them if none does. -/
def reach (last : Option Token) (depth : Nat) : List Token → Nat
  | [] => 0
  | t :: rest =>
    match step last t depth with
    | 0 => 1
    | d + 1 => reach (some t) (d + 1) rest + 1

/-- A list that starts with `<`, cut behind the `>` that closes it. -/
def span (tokens : List Token) : List Token × List Token := tokens.splitAt (reach none 0 tokens)

/-- The number of tokens before the first one outside of angle brackets that satisfies `stop`. -/
def lengthUntil (stop : Token → Bool) (last : Option Token) (depth : Nat) : List Token → Nat
  | [] => 0
  | t :: rest =>
    if depth = 0 && stop t then 0 else lengthUntil stop (some t) (step last t depth) rest + 1

/-- The list cut before the first token outside of angle brackets that satisfies `stop`. -/
def spanUntil (stop : Token → Bool) (tokens : List Token) : List Token × List Token :=
  tokens.splitAt (lengthUntil stop none 0 tokens)

/-- The parts between the separators from here on; the first one continues the tokens of `part`,
the latest first. -/
def splitFrom (sep : Char) (last : Option Token) (depth : Nat) (part : List Token) :
    List Token → List (List Token)
  | [] => if part.isEmpty then [] else [part.reverse]
  | t :: rest =>
    if depth = 0 && t.isPunct sep then
      if part.isEmpty then splitFrom sep (some t) 0 [] rest
      else part.reverse :: splitFrom sep (some t) 0 [] rest
    else splitFrom sep (some t) (step last t depth) (t :: part) rest

/-- The parts of the list between separators outside of angle brackets, without the empty ones. -/
def split (sep : Char) (tokens : List Token) : List (List Token) := splitFrom sep none 0 [] tokens

/-! ## Parts weigh no more than the whole -/

theorem weightL_reverse (ts : List Token) : Token.weightL ts.reverse = Token.weightL ts := by
  induction ts with
  | nil => rfl
  | cons t ts ih => simp [ih, Nat.add_comm]

theorem weightL_mem_splitFrom {sep : Char} {tokens : List Token} :
    ∀ {last : Option Token} {depth : Nat} {part p : List Token},
      p ∈ splitFrom sep last depth part tokens →
        Token.weightL p ≤ Token.weightL part + Token.weightL tokens := by
  induction tokens with
  | nil =>
    intro last depth part p h
    simp only [splitFrom] at h
    split at h
    · simp at h
    · simp only [List.mem_singleton] at h
      simp [h, weightL_reverse]
  | cons t rest ih =>
    intro last depth part p h
    simp only [splitFrom] at h
    split at h
    · split at h
      · have := ih h
        simp only [Token.weightL_nil, Token.weightL_cons] at *
        omega
      · rcases List.mem_cons.1 h with h | h
        · simp [h, weightL_reverse]
        · have := ih h
          simp only [Token.weightL_nil, Token.weightL_cons] at *
          omega
    · have := ih h
      simp only [Token.weightL_cons] at *
      omega

theorem weightL_mem_split {sep : Char} {tokens p : List Token} (h : p ∈ split sep tokens) :
    Token.weightL p ≤ Token.weightL tokens := by
  simpa using weightL_mem_splitFrom h

end GetterRename.Angle
