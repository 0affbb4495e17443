import GetterRename.Patch.Apply
import GetterRename.Proofs.Source.FileHead
import GetterRename.Proofs.Source.TokenList
import GetterRename.Proofs.Text.Quoted

/-!
# The alias attribute

The attribute that keeps a former name is read as the same elements wherever it is put, whatever the
name is: the name is one string literal, and the blank at its end sees nothing of what is behind it.
Its tokens are a hash and a group, so they join the token list of the place where it stands.

* `Patch.aliasElements`, `Patch.aliasTokens` — the attribute read;
* `Patch.free_aliasElements` — it is read in front of any text;
* `Patch.nest_aliasElements` — its tokens join the list where it stands;
* `Patch.shebang_aliasElements` — it makes no `#!` line.
-/

namespace GetterRename

namespace Patch

def aliasElements (name : Bytes) : List Element :=
  [⟨.punct false, "#"⟩, ⟨.opening .bracket, "["⟩, ⟨.ident, "doc"⟩, ⟨.opening .paren, "("⟩,
    ⟨.ident, "alias"⟩, ⟨.blank, " "⟩, ⟨.punct false, "="⟩, ⟨.blank, " "⟩,
    ⟨.literal, Quoted.string name⟩, ⟨.closing .paren, ")"⟩, ⟨.closing .bracket, "]"⟩, ⟨.blank, " "⟩]

/-- The tokens of the attribute at `p`. -/
def aliasTokens (name : Bytes) (p : Pos) : List Token :=
  [.punct (byte '#') false p,
    .group .bracket [.ident "doc" ⟨p.line, p.col + 2⟩,
      .group .paren [.ident "alias" ⟨p.line, p.col + 6⟩,
        .punct (byte '=') false ⟨p.line, p.col + 12⟩,
        .literal (Quoted.string name) ⟨p.line, p.col + 14⟩] ⟨p.line, p.col + 5⟩] ⟨p.line, p.col + 1⟩]

theorem textL_aliasElements (name : Bytes) :
    Element.textL (aliasElements name) = aliasAttribute name := by
  simp only [aliasElements, Element.textL_cons, Element.textL_nil, aliasAttribute]
  rfl

theorem newline_not_mem_aliasAttribute (name : Bytes) : byte '\n' ∉ aliasAttribute name := by
  obtain ⟨-, -, hline, -⟩ := Quoted.exists_body name
  have hfront : byte '\n' ∉ Bytes.ofString "#[doc(alias = " := by decide +kernel
  have hbehind : byte '\n' ∉ Bytes.ofString ")] " := by decide +kernel
  simp only [aliasAttribute, List.mem_append, not_or]
  exact ⟨⟨hfront, hline⟩, hbehind⟩

/-- The tokens of the attribute join those in front of it. -/
theorem nest_aliasElements (name : Bytes) (p : Pos) (frames : List Frame) (tokens : List Token) :
    Token.nest (Element.events p (aliasElements name)) frames tokens =
      .ok (frames, (aliasTokens name p).reverse ++ tokens) :=
  rfl

theorem stack_aliasElements (name : Bytes) (p : Pos) (ds : List Delimiter) :
    Event.stack (Element.events p (aliasElements name)) ds = some ds :=
  rfl

theorem at?_literal_string (name : Bytes) (y : Bytes) (hy : y.head?.any isWordByte = false) :
    ∃ body, Quoted.string name = byte '"' :: body ∧
      Piece.at? (byte '"') (body ++ y) = .ok (.literal, body.length) := by
  obtain ⟨body, hstring, -, hbody⟩ := Quoted.exists_body name
  refine ⟨body, hstring, ?_⟩
  have hquote : Piece.lead (byte '"') = .quote := by decide
  have hsuffix : Extent.suffix y = 0 := by
    cases y with
    | nil => rfl
    | cons b y =>
      have hb : isWordByte b = false := hy
      simp [Extent.suffix, hb]
  rw [Piece.at?_eq, hquote]
  simp [Piece.literalOf, hbody, hsuffix]

theorem at?_name_cons {b c : UInt8} {x : Bytes} (h : IsName (b :: x))
    (hc : c = byte '(' ∨ c = byte ' ') (y : Bytes) :
    Piece.at? b (x ++ c :: y) = .ok (.ident, x.length) := by
  have hbyte : c < 0x80 ∧ isWordByte c = false ∧ c ∉ Piece.hazards := by
    rcases hc with rfl | rfl <;> decide
  refine Piece.at?_name h ?_ fun d hd => ?_
  · rw [Near.identifier_ascii hbyte.1, if_neg (by simp [hbyte.2.1])]
  · obtain rfl := Option.some.inj hd
    exact hbyte.2.2

/-- **The attribute is read in front of any text.** -/
theorem free_aliasElements (name : Bytes) : Element.Free (aliasElements name) := by
  intro es hes
  have hname : IsName "doc" ∧ IsName "alias" := by
    refine ⟨⟨?_, by decide +kernel⟩, ⟨?_, by decide +kernel⟩⟩
    all_goals
      unfold IsRun
      decide +kernel
  obtain ⟨body, hstring, hliteral⟩ :=
    at?_literal_string name (byte ')' :: byte ']' :: byte ' ' :: Element.textL es) rfl
  rw [aliasElements, hstring]
  refine .next (x := []) rfl (.next (x := []) rfl (.next (at?_name_cons hname.1 (.inl rfl) _) ?_))
  refine .next (x := []) rfl (.next (at?_name_cons hname.2 (.inr rfl) _) ?_)
  refine .next (x := []) rfl (.next (x := []) rfl (.next (x := []) rfl (.next hliteral ?_)))
  exact .next (x := []) rfl (.next (x := []) rfl (.next (x := []) rfl hes))

theorem shebang_aliasElements (name : Bytes) (es : List Element) :
    Event.shebang (Element.textL (aliasElements name ++ es)) = 0 := by
  rcases Event.shebang_eq (Element.textL (aliasElements name ++ es)) with
    ⟨hzero, -⟩ | ⟨a, b, heq, -⟩
  · exact hzero
  · -- a bracket stands behind the hash
    have hbang := (List.cons.inj (List.cons.inj heq).2).1
    exact absurd hbang (by decide)

end Patch

end GetterRename
