import GetterRename.Proofs.Source.Element

/-!
# The text of a lexical element

White space is one byte, a line comment stays on its line, a block comment closes what it opens, and
punctuation and delimiters are their own character.  A comment is read again wherever its text
stands, a line comment in front of the end of its line.

* `Closes` — a text that closes block comments;
* `Piece.spells_of_at?` — the text of a lexical element;
* `Piece.at?_lineComment`, `Piece.at?_blockComment` — reading a comment.
-/

namespace GetterRename

/-! ### Nested comments -/

/-- The text closes so many block comments, and nothing follows. Comments nest. -/
inductive Closes : Nat → Bytes → Prop
  | done : Closes 0 []
  | opens {depth : Nat} {text : Bytes} (h : Closes (depth + 2) text) :
      Closes (depth + 1) (byte '/' :: byte '*' :: text)
  | closes {depth : Nat} {text : Bytes} (h : Closes depth text) :
      Closes (depth + 1) (byte '*' :: byte '/' :: text)
  | other {depth : Nat} {b : UInt8} {text : Bytes} (h : Closes (depth + 1) text)
      (hopens : ¬ [byte '/', byte '*'] <+: b :: text)
      (hcloses : ¬ [byte '*', byte '/'] <+: b :: text) : Closes (depth + 1) (b :: text)

/-! ### The text of an element -/

namespace Piece

/-- What the text of an element looks like. Names and literals are their own text. -/
def Spells : Piece → Bytes → Prop
  | .blank, text => ∃ b, text = [b] ∧ isSpace b = true
  | .lineComment, text => Bytes.ofString "//" <+: text ∧ byte '\n' ∉ text
  | .blockComment, text => ∃ inner, text = byte '/' :: byte '*' :: inner ∧ Closes 1 inner
  | .opening d, text => text = [byte d.opener]
  | .closing d, text => text = [byte d.closer]
  | .punct _, text => ∃ c, text = [c]
  | _, _ => True

theorem closes_of_comment? {depth : Nat} {text : Bytes} {n : Nat}
    (h : Extent.comment? depth text = some n) : Closes depth (text.take n) := by
  fun_induction Extent.comment? depth text generalizing n with
  | case1 text =>
    obtain rfl : 0 = n := by simpa using h
    exact .done
  | case2 => simp at h
  | case3 => simp at h
  | case4 depth b c rest h1 ih =>
    obtain ⟨m, hm, rfl⟩ := Option.map_eq_some_iff.1 h
    obtain ⟨rfl, rfl⟩ : b = byte '/' ∧ c = byte '*' := by simpa using h1
    exact .opens (ih hm)
  | case5 depth b c rest h1 h2 ih =>
    obtain ⟨m, hm, rfl⟩ := Option.map_eq_some_iff.1 h
    obtain ⟨rfl, rfl⟩ : b = byte '*' ∧ c = byte '/' := by simpa using h2
    exact .closes (ih hm)
  | case6 depth b c rest h1 h2 ih =>
    obtain ⟨m, hm, rfl⟩ := Option.map_eq_some_iff.1 h
    have hpair : ∀ x y : UInt8, [x, y] <+: b :: (c :: rest).take m → x = b ∧ y = c := by
      rintro x y ⟨t, ht⟩
      cases m with
      | zero => simp at ht
      | succ m =>
        obtain ⟨hx, hy, -⟩ : x = b ∧ y = c ∧ t = rest.take m := by simpa using ht
        exact ⟨hx, hy⟩
    refine .other (ih hm) (fun h => h1 ?_) (fun h => h2 ?_)
    · obtain ⟨rfl, rfl⟩ := hpair _ _ h
      simp
    · obtain ⟨rfl, rfl⟩ := hpair _ _ h
      simp

theorem piece_of_literalOf {fault : Fault} {extent : Option Nat} {rest : Bytes} {piece : Piece}
    {n : Nat} (h : literalOf fault extent rest = .ok (piece, n)) : piece = .literal := by
  cases extent with
  | none => simp [literalOf] at h
  | some m => exact (Prod.mk.inj (Except.ok.inj h)).1.symm

theorem spells_of_literalOf {fault : Fault} {extent : Option Nat} {rest text : Bytes}
    {piece : Piece} {n : Nat} (h : literalOf fault extent rest = .ok (piece, n)) :
    piece.Spells text := by
  rw [piece_of_literalOf h]
  trivial

theorem spells_of_word {b : UInt8} {rest text : Bytes} {piece : Piece} {n : Nat}
    (h : word b rest = .ok (piece, n)) : piece.Spells text := by
  have hraw : ∀ {lead}, rawOf lead rest = .ok (piece, n) → piece.Spells text := by
    intro lead h
    unfold rawOf at h
    simp only at h
    split at h
    · exact spells_of_literalOf h
    · simp at h
  unfold word at h
  simp only at h
  split at h
  · obtain ⟨rfl, -⟩ := Prod.mk.inj (Except.ok.inj h)
    trivial
  split at h
  · exact hraw h
  split at h
  · exact spells_of_literalOf h
  split at h
  · exact spells_of_literalOf h
  split at h
  · exact hraw h
  split at h
  · obtain ⟨rfl, -⟩ := Prod.mk.inj (Except.ok.inj h)
    trivial
  · simp at h

theorem takeWhile_of_slash {x y : Bytes} (h : slash (x ++ y) = .ok (.lineComment, x.length)) :
    (x ++ y).head? = some (byte '/') ∧ (x ++ y).takeWhile (· != byte '\n') = x := by
  unfold slash at h
  split at h
  · rename_i hhead
    have hlength := (Prod.mk.inj (Except.ok.inj h)).2
    have hprefix := List.takeWhile_prefix (l := x ++ y) (· != byte '\n')
    rw [List.prefix_iff_eq_take, hlength, List.take_left] at hprefix
    exact ⟨hhead, hprefix⟩
  split at h
  · split at h <;> simp at h
  · simp at h

theorem spells_of_slash {x y : Bytes} {piece : Piece}
    (h : slash (x ++ y) = .ok (piece, x.length)) : piece.Spells (byte '/' :: x) := by
  have hcomment : piece = .lineComment → piece.Spells (byte '/' :: x) := by
    rintro rfl
    obtain ⟨hhead, hx⟩ := takeWhile_of_slash h
    obtain ⟨rest, hrest⟩ := List.head?_eq_some_iff.1 hhead
    have hslash : ∃ x', x = byte '/' :: x' := by
      rw [hrest, List.takeWhile_cons, if_pos (by decide)] at hx
      exact ⟨_, hx.symm⟩
    obtain ⟨x', rfl⟩ := hslash
    refine ⟨⟨x', rfl⟩, fun hmem => ?_⟩
    rcases List.mem_cons.1 hmem with heq | hmem
    · exact absurd heq (by decide)
    · rw [← hx] at hmem
      simpa using List.mem_takeWhile_imp hmem
  unfold slash at h
  split at h
  · exact hcomment (Prod.mk.inj (Except.ok.inj h)).1.symm
  split at h
  · rename_i hhead
    split at h
    · rename_i m hm
      obtain ⟨rfl, hlength⟩ := Prod.mk.inj (Except.ok.inj h)
      obtain ⟨c, inner, rfl⟩ : ∃ c inner, x = c :: inner := by
        cases x with
        | nil => simp at hlength
        | cons c inner => exact ⟨c, inner, rfl⟩
      obtain rfl : c = byte '*' := by simpa using hhead
      obtain rfl : m = inner.length := by simpa using hlength
      have hcloses := closes_of_comment? hm
      rw [List.cons_append, List.drop_one, List.tail_cons, List.take_left] at hcloses
      exact ⟨inner, rfl, hcloses⟩
    · simp at h
  · obtain ⟨rfl, hlength⟩ := Prod.mk.inj (Except.ok.inj h)
    obtain rfl : x = [] := List.eq_nil_of_length_eq_zero hlength.symm
    exact ⟨_, rfl⟩

theorem piece_of_tick {rest : Bytes} {piece : Piece} {n : Nat}
    (h : tick rest = .ok (piece, n)) :
    piece = .literal ∨ (∃ joint, piece = .punct joint) ∧ n = 0 := by
  unfold tick at h
  split at h
  · exact .inl (piece_of_literalOf h)
  split at h
  · obtain ⟨rfl, rfl⟩ := Prod.mk.inj (Except.ok.inj h)
    exact .inr ⟨⟨true, rfl⟩, rfl⟩
  · simp at h

theorem lead_spec (b : UInt8) :
    (lead b = .space → isSpace b = true) ∧ (∀ d, lead b = .opening d → b = byte d.opener) ∧
      ∀ d, lead b = .closing d → b = byte d.closer := by
  unfold lead
  split
  · rename_i hspace
    exact ⟨fun _ => hspace, by simp, by simp⟩
  split
  · simp
  split
  · rename_i d hopened
    rw [Delimiter.opened?] at hopened
    refine ⟨by simp, fun d' hd => ?_, by simp⟩
    obtain rfl := Lead.opening.inj hd
    have heq := List.find?_some hopened
    exact (of_decide_eq_true heq).symm
  · rename_i d _ hclosed
    rw [Delimiter.closed?] at hclosed
    refine ⟨by simp, by simp, fun d' hd => ?_⟩
    obtain rfl := Lead.closing.inj hd
    have heq := List.find?_some hclosed
    exact (of_decide_eq_true heq).symm
  · repeat' split
    all_goals simp

/-- **The text of a lexical element.** -/
theorem spells_of_at? {b : UInt8} {x y : Bytes} {piece : Piece}
    (h : at? b (x ++ y) = .ok (piece, x.length)) : piece.Spells (b :: x) := by
  have hnil : ∀ {found : Piece}, Except.ok (ε := Fault) (found, 0) = .ok (piece, x.length) →
      piece = found ∧ x = [] := by
    intro found heq
    obtain ⟨rfl, hlength⟩ := Prod.mk.inj (Except.ok.inj heq)
    exact ⟨rfl, List.eq_nil_of_length_eq_zero hlength.symm⟩
  rw [at?_eq] at h
  cases hl : lead b with
  | space =>
    rw [hl] at h
    obtain ⟨rfl, rfl⟩ := hnil h
    exact ⟨b, rfl, (lead_spec b).1 hl⟩
  | slash =>
    rw [hl] at h
    obtain rfl := eq_of_lead_slash hl
    exact spells_of_slash h
  | opening d =>
    rw [hl] at h
    obtain ⟨rfl, rfl⟩ := hnil h
    exact congrArg (fun c => [c]) ((lead_spec b).2.1 d hl)
  | closing d =>
    rw [hl] at h
    obtain ⟨rfl, rfl⟩ := hnil h
    exact congrArg (fun c => [c]) ((lead_spec b).2.2 d hl)
  | quote =>
    rw [hl] at h
    exact spells_of_literalOf h
  | tick =>
    rw [hl] at h
    rcases piece_of_tick h with rfl | ⟨⟨joint, rfl⟩, hlength⟩
    · trivial
    · obtain rfl : x = [] := List.eq_nil_of_length_eq_zero hlength
      exact ⟨b, rfl⟩
  | digit =>
    rw [hl] at h
    obtain ⟨rfl, -⟩ := Prod.mk.inj (Except.ok.inj h)
    trivial
  | punct =>
    rw [hl] at h
    obtain ⟨rfl, rfl⟩ := hnil h
    exact ⟨b, rfl⟩
  | word =>
    rw [hl] at h
    exact spells_of_word h

/-! ### Reading comments -/

theorem comment?_of_closes {depth : Nat} {text : Bytes} (h : Closes depth text) (z : Bytes) :
    Extent.comment? depth (text ++ z) = some text.length := by
  induction h with
  | done => simp [Extent.comment?]
  | opens _ ih => simp [Extent.comment?, ih]
  | closes _ ih =>
    have hne : byte '*' ≠ byte '/' := by decide
    simp [Extent.comment?, hne, ih]
  | @other depth b text h hopens hcloses ih =>
    obtain ⟨c, text, rfl⟩ : ∃ c text', text = c :: text' := by
      cases h <;> exact ⟨_, _, rfl⟩
    have h1 : ¬ (b = byte '/' ∧ c = byte '*') := by
      rintro ⟨rfl, rfl⟩
      exact hopens ⟨text, rfl⟩
    have h2 : ¬ (b = byte '*' ∧ c = byte '/') := by
      rintro ⟨rfl, rfl⟩
      exact hcloses ⟨text, rfl⟩
    rw [List.cons_append] at ih
    simp [Extent.comment?, h1, h2, ih]

theorem at?_lineComment {b : UInt8} {x y : Bytes} (h : lineComment.Spells (b :: x))
    (hy : y.head?.all (· == byte '\n') = true) : at? b (x ++ y) = .ok (.lineComment, x.length) := by
  obtain ⟨⟨inner, hinner⟩, hline⟩ := h
  have hx : byte '/' :: byte '/' :: inner = b :: x := hinner
  obtain ⟨rfl, rfl⟩ := List.cons.inj hx
  have hslash : lead (byte '/') = .slash := by decide
  have htake : (byte '/' :: (inner ++ y)).takeWhile (· != byte '\n') = byte '/' :: inner := by
    rw [← List.cons_append]
    refine takeWhile_append_of_all (fun c hc => ?_) ?_
    · rw [bne_iff_ne]
      rintro rfl
      exact hline (List.mem_cons_of_mem _ hc)
    · cases y with
      | nil => rfl
      | cons c y =>
        obtain rfl : c = byte '\n' := by simpa using hy
        rfl
  rw [at?_eq, hslash]
  simp [slash, htake]

theorem lineEnd_of_at? {b : UInt8} {x y : Bytes} (h : at? b (x ++ y) = .ok (.lineComment, x.length)) :
    y.head?.all (· == byte '\n') = true := by
  obtain ⟨⟨inner, hinner⟩, -⟩ := spells_of_at? h
  have hx : byte '/' :: byte '/' :: inner = b :: x := hinner
  obtain ⟨rfl, rfl⟩ := List.cons.inj hx
  have hslash : lead (byte '/') = .slash := by decide
  rw [at?_eq, hslash] at h
  have htake := (takeWhile_of_slash h).2
  have hall : ∀ c ∈ byte '/' :: inner, (c != byte '\n') = true := by
    intro c hc
    rw [← htake] at hc
    exact List.mem_takeWhile_imp (p := (· != byte '\n')) hc
  rw [List.takeWhile_append_of_pos hall, List.append_right_eq_self] at htake
  cases y with
  | nil => rfl
  | cons c y => simpa [List.takeWhile_cons] using htake

theorem at?_blockComment {b : UInt8} {x : Bytes} (h : blockComment.Spells (b :: x)) (y : Bytes) :
    at? b (x ++ y) = .ok (.blockComment, x.length) := by
  obtain ⟨inner, hx, hcloses⟩ := h
  obtain ⟨rfl, rfl⟩ := List.cons.inj hx
  have hslash : lead (byte '/') = .slash := by decide
  have hne : byte '*' ≠ byte '/' := by decide
  rw [at?_eq, hslash]
  simp [slash, hne, comment?_of_closes hcloses]

end Piece

end GetterRename
