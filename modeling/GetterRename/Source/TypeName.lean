import GetterRename.Source.Angle

/-!
# Names of types

The type of an `impl` block as it is shown to a reader: paths are reduced to their last segment, so
`&'a [std::string::String]` is shown as `&'a [String]`.

- `TypeName.lastSegment` : the last name of a path outside of angle brackets;
- `TypeName.format` : the name of a type.
-/

namespace GetterRename.TypeName

/-- The last identifier outside of angle brackets from here on, `name` if there is none. -/
def lastSegmentFrom (last : Option Token) (depth : Nat) (name : Bytes) : List Token → Bytes
  | [] => name
  | t :: rest =>
    lastSegmentFrom (some t) (Angle.step last t depth)
      (if depth = 0 && t.isName then t.text else name) rest

/-- The last identifier of a path outside of angle brackets: `std::vec::Vec<u8>` gives `Vec`. -/
def lastSegment (tokens : List Token) : Bytes := lastSegmentFrom none 0 [] tokens

/-- The lifetime and the `mut` behind a `&`, and the number of their tokens. -/
def refMarks (tokens : List Token) : Bytes × Nat :=
  let (lifetime, n) :=
    match tokens with
    | tick :: name :: _ =>
      if tick.isPunct '\'' then ("'" ++ name.text ++ Bytes.ofString " ", 2) else ([], 0)
    | _ => ([], 0)
  if (tokens.drop n).head?.any (·.isIdent "mut") then (lifetime ++ Bytes.ofString "mut ", n + 1)
  else (lifetime, n)

/-- The bounds of a trait object, lifetimes left out. -/
def bounds (tokens : List Token) : List Bytes :=
  (Angle.split '+' tokens).filterMap fun bound =>
    if bound.head?.any (·.isPunct '\'') then none else some (lastSegment bound)

/-- The name of a type. -/
def format (tokens : List Token) : Bytes :=
  match tokens with
  | [] => []
  | first :: rest =>
    if first.isPunct '&' then
      let marks := refMarks rest
      "&" ++ marks.1 ++ format (rest.drop marks.2)
    else if first.isPunct '*' then
      let marks := if rest.head?.any fun t => t.isIdent "const" || t.isIdent "mut" then 1 else 0
      "*" ++ format (rest.drop marks)
    else
      match first with
      | .group .bracket inner _ =>
        match _h : Angle.split ';' inner with
        | [] => "[" ++ format inner ++ Bytes.ofString "]"
        | elem :: _ => "[" ++ format elem ++ Bytes.ofString "]"
      | .group .paren inner _ =>
        let names := (Angle.split ',' inner).attach.map fun ⟨elem, _⟩ => format elem
        "(" ++ Bytes.join ", " names ++ Bytes.ofString ")"
      | _ =>
        if first.isIdent "dyn" then "dyn " ++ Bytes.join " + " (bounds rest)
        else lastSegment (first :: rest)
termination_by Token.weightL tokens
decreasing_by
  all_goals simp only [Token.weightL_cons, Token.weight_group]
  · have := Token.weight_pos first
    refine Nat.lt_of_le_of_lt (Token.weightL_drop_le _ rest) ?_
    omega
  · have := Token.weight_pos first
    refine Nat.lt_of_le_of_lt (Token.weightL_drop_le _ rest) ?_
    omega
  · omega
  · have : elem ∈ Angle.split ';' inner := by simp [_h]
    have := Angle.weightL_mem_split this
    omega
  · rename_i hmem
    have := Angle.weightL_mem_split hmem
    omega

end GetterRename.TypeName
