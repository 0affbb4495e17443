import GetterRename.Proofs.Source.Brackets

/-!
# Token lists

The trees of a file are token lists inside each other.  What nesting has collected so far, in the
innermost open group and in the groups around it, is the beginning of one of these lists each.  And
whether nesting comes to an end depends on the delimiters alone.

* `Token.Within` — a list among the token lists of trees;
* `Token.within_of_nest` — what has been collected begins a list of the file;
* `Event.stack` — the delimiters that events leave open, `Token.stack_of_nest`;
* `Token.exists_nest_of_relabel` — nesting events that differ in names and places.
-/

namespace GetterRename

/-! ### Lists inside lists -/

/-- The list is one of the token lists of the trees: all of them, or one inside a group. -/
inductive Token.Within (list : List Token) : List Token → Prop
  | here : Within list list
  | inside {d : Delimiter} {inner before after : List Token} {p : Pos} (h : Within list inner) :
      Within list (before ++ .group d inner p :: after)

namespace Token

theorem Within.group {d : Delimiter} {inner before after trees : List Token} {p : Pos}
    (h : Within (before ++ .group d inner p :: after) trees) : Within inner trees := by
  generalize hlist : before ++ Token.group d inner p :: after = list at h
  induction h with
  | here =>
    subst hlist
    exact .inside .here
  | inside _ ih => exact .inside ih

/-- A list is all of the trees, or it is in one of their groups. -/
theorem Within.eq_or_inside {list trees : List Token} (h : Within list trees) :
    list = trees ∨ ∃ d inner p, .group d inner p ∈ trees ∧ Within list inner := by
  cases h with
  | here => exact .inl rfl
  | @inside d inner before after p h => exact .inr ⟨d, inner, p, by simp, h⟩

theorem Within.leaf_mem {list trees : List Token} {t : Token} (h : Within list trees)
    (ht : t.isGroup = false) (hmem : t ∈ list) : .leaf t ∈ marksL trees := by
  induction h with
  | here =>
    obtain ⟨before, after, rfl⟩ := List.append_of_mem hmem
    simp [marks_leaf ht]
  | inside _ ih => simp [ih]

theorem exists_nest_of_append {a b : List Event} {frames : List Frame} {tokens : List Token}
    {out : List Frame × List Token} (h : nest (a ++ b) frames tokens = .ok out) :
    ∃ frames' tokens', nest a frames tokens = .ok (frames', tokens') ∧
      nest b frames' tokens' = .ok out := by
  rw [nest_append] at h
  split at h
  · rename_i frames' tokens' ha
    exact ⟨frames', tokens', ha, h⟩
  · exact nomatch h

/-- **What nesting has collected** begins a list of the file, in the innermost open group and in those
around it. -/
theorem within_of_nest {es : List Event} {frames : List Frame} {tokens out : List Token}
    (h : nest es frames tokens = .ok ([], out)) :
    (∃ after, Within (tokens.reverse ++ after) out.reverse) ∧
      ∀ frame ∈ frames, ∃ after, Within (frame.before.reverse ++ after) out.reverse := by
  induction es generalizing frames tokens with
  | nil =>
    obtain ⟨rfl, rfl⟩ := Prod.mk.inj (Except.ok.inj h)
    exact ⟨⟨[], by rw [List.append_nil]; exact .here⟩, by simp⟩
  | cons e es ih =>
    cases e with
    | token t =>
      obtain ⟨⟨after, hafter⟩, hframes⟩ := ih h
      rw [List.reverse_cons, List.append_assoc] at hafter
      exact ⟨⟨_, hafter⟩, hframes⟩
    | opening d p =>
      obtain ⟨-, hframes⟩ := ih h
      rw [List.forall_mem_cons] at hframes
      exact hframes
    | closing d p =>
      cases frames with
      | nil => simp [nest] at h
      | cons frame frames =>
        simp only [nest] at h
        split at h
        · obtain ⟨⟨after, hafter⟩, hframes⟩ := ih h
          rw [List.reverse_cons, List.append_assoc] at hafter
          refine ⟨⟨[], ?_⟩, List.forall_mem_cons.2 ⟨⟨_, hafter⟩, hframes⟩⟩
          rw [List.append_nil]
          exact hafter.group
        · simp at h

end Token

/-! ### Open delimiters -/

namespace Event

/-- The delimiters left open behind the events, the innermost first, from those open before them. -/
def stack : List Event → List Delimiter → Option (List Delimiter)
  | [], opens => some opens
  | .token _ :: es, opens => stack es opens
  | .opening d _ :: es, opens => stack es (d :: opens)
  | .closing _ _ :: _, [] => none
  | .closing d _ :: es, d' :: opens => if d' = d then stack es opens else none

theorem stack_append (a b : List Event) (ds : List Delimiter) :
    stack (a ++ b) ds = (stack a ds).bind (stack b) := by
  induction a generalizing ds with
  | nil => rfl
  | cons e a ih =>
    cases e with
    | token t => exact ih ds
    | opening d p => exact ih (d :: ds)
    | closing d p =>
      cases ds with
      | nil => rfl
      | cons d' ds =>
        simp only [List.cons_append, stack]
        split
        · exact ih ds
        · rfl

theorem stack_of_tokens {es : List Event} (h : ∀ e ∈ es, ∃ t, e = .token t)
    (ds : List Delimiter) : stack es ds = some ds := by
  induction es with
  | nil => rfl
  | cons e es ih =>
    obtain ⟨⟨t, rfl⟩, hes⟩ := List.forall_mem_cons.1 h
    exact ih hes

theorem exists_token_of_mem {p : Pos} {text : Bytes} {piece : Piece}
    (hopening : ∀ d, piece ≠ .opening d) (hclosing : ∀ d, piece ≠ .closing d) :
    ∀ e ∈ ofPiece p text piece, ∃ t, e = .token t := by
  intro e he
  cases piece with
  | opening d => exact absurd rfl (hopening d)
  | closing d => exact absurd rfl (hclosing d)
  | blockComment =>
    simp only [ofPiece] at he
    cases hd : Piece.blockDoc text with
    | nil => simp [hd, ofBlockDoc] at he
    | cons first rest =>
      simp only [hd, ofBlockDoc, List.mem_cons, List.mem_mapIdx] at he
      rcases he with rfl | ⟨i, hi, rfl⟩ <;> exact ⟨_, rfl⟩
  | lineComment =>
    simp only [ofPiece] at he
    split at he
    · exact ⟨_, List.mem_singleton.1 he⟩
    · simp at he
  | punct joint =>
    obtain ⟨c, -, rfl⟩ := List.mem_map.1 he
    exact ⟨_, rfl⟩
  | blank => simp [ofPiece] at he
  | _ => exact ⟨_, List.mem_singleton.1 he⟩

theorem stack_ofPiece (p p' : Pos) (text text' : Bytes) (piece : Piece) (ds : List Delimiter) :
    stack (ofPiece p text piece) ds = stack (ofPiece p' text' piece) ds := by
  by_cases hopening : ∃ d, piece = .opening d
  · obtain ⟨d, rfl⟩ := hopening
    rfl
  by_cases hclosing : ∃ d, piece = .closing d
  · obtain ⟨d, rfl⟩ := hclosing
    cases ds <;> rfl
  · have htokens := fun p text => @exists_token_of_mem p text piece (fun d h => hopening ⟨d, h⟩)
      fun d h => hclosing ⟨d, h⟩
    rw [stack_of_tokens (htokens p text), stack_of_tokens (htokens p' text')]

end Event

namespace Token

/-- Nesting comes to an end where the delimiters match, and its frames are those left open. -/
theorem stack_of_nest (es : List Event) (frames : List Frame) (tokens : List Token) :
    (nest es frames tokens).toOption.map (fun r => r.1.map Frame.delim) =
      Event.stack es (frames.map Frame.delim) := by
  induction es generalizing frames tokens with
  | nil => rfl
  | cons e es ih =>
    cases e with
    | token t => exact ih frames (t :: tokens)
    | opening d p => exact ih (⟨d, p, tokens⟩ :: frames) []
    | closing d p =>
      cases frames with
      | nil => rfl
      | cons frame frames =>
        simp only [nest, Event.stack, List.map_cons]
        split
        · exact ih frames _
        · rfl

/-- Events that close what they open have token trees. -/
theorem exists_nest_of_stack {es : List Event} (h : Event.stack es [] = some []) :
    ∃ toks : List Token, nest es [] [] = .ok ([], toks.reverse) := by
  have hstack := stack_of_nest es [] []
  rw [List.map_nil, h] at hstack
  cases hnest : nest es [] [] with
  | error e => simp [hnest, Except.toOption] at hstack
  | ok found =>
    obtain ⟨frames, tokens⟩ := found
    simp only [hnest, Except.toOption, Option.map_some, Option.some.injEq,
      List.map_eq_nil_iff] at hstack
    exact ⟨tokens.reverse, by rw [hstack, List.reverse_reverse]⟩

theorem stack_of_nest_eq {es : List Event} {tokens : List Token}
    (h : nest es [] [] = .ok ([], tokens)) : Event.stack es [] = some [] := by
  have hstack := stack_of_nest es [] []
  rw [h] at hstack
  exact hstack.symm

/-- A run that closes what it opens goes on in the same group. -/
theorem nest_of_nest_nil {es : List Event} {tokens : List Token}
    (h : nest es [] [] = .ok ([], tokens)) (frames : List Frame) (before : List Token) :
    nest es frames before = .ok (frames, tokens ++ before) := by
  cases exists_nest_iff.1 ⟨_, _, h, rfl⟩ with
  | none closed =>
    obtain ⟨content, hnest⟩ := exists_content_of_balanced closed
    obtain ⟨-, rfl⟩ := Prod.mk.inj (Except.ok.inj (h.symm.trans (hnest [] [])))
    rw [hnest, List.append_nil]

/-- Events that are the same up to names and places have trees that are the same up to them. -/
theorem exists_nest_of_relabel {es es' : List Event} {toks : List Token}
    {name name' : Ident → Bytes} {place : Pos → Pos}
    (h : es'.map (Event.relabel name' place) = es.map (Event.relabel name place))
    (hnest : nest es [] [] = .ok ([], toks.reverse)) :
    ∃ toks' : List Token, nest es' [] [] = .ok ([], toks'.reverse) ∧
      toks'.map (relabel name' place) = toks.map (relabel name place) := by
  have hold := nest_relabel name place es [] []
  have hnew := nest_relabel name' place es' [] []
  rw [h] at hnew
  rw [hnest] at hold
  have hboth := hnew.symm.trans hold
  cases hres : nest es' [] [] with
  | error e => simp [hres, Except.toOption] at hboth
  | ok found =>
    obtain ⟨frames, tokens⟩ := found
    simp only [hres, Except.toOption, Option.map_some, Option.some.injEq, Prod.mk.injEq,
      List.map_nil, List.map_eq_nil_iff] at hboth
    obtain ⟨rfl, htokens⟩ := hboth
    refine ⟨tokens.reverse, by rw [List.reverse_reverse], ?_⟩
    rw [List.map_reverse, htokens, ← List.map_reverse, List.reverse_reverse]

end Token

end GetterRename
