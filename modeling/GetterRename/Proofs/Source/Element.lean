import GetterRename.Proofs.Source.Lookahead

/-!
# Lexical elements

The first byte of an element says which family it belongs to.  With the families settled, every
element is.

* `Piece.Lead`, `Piece.at?_eq` — the family of an element by its first byte;
* `Piece.at?_inv`, `Piece.at?_again` — an element in front of a text alike;
* `Piece.at?_name` — a name where nothing makes a literal of it;
* `Piece.at?_ident`, `Piece.at?_above` — what is read as an identifier.
-/

namespace GetterRename.Piece

/-! ### Families -/

/-- What the first byte says about an element. -/
inductive Lead where
  | space
  | slash
  | opening (delim : Delimiter)
  | closing (delim : Delimiter)
  | quote
  | tick
  | digit
  | punct
  | word
  deriving DecidableEq

def lead (b : UInt8) : Lead :=
  if isSpace b then .space
  else if b == byte '/' then .slash
  else
    match Delimiter.opened? b, Delimiter.closed? b with
    | some d, _ => .opening d
    | none, some d => .closing d
    | none, none =>
      if b == byte '"' then .quote
      else if b == byte '\'' then .tick
      else if isDigitByte b then .digit
      else if punctuation.contains b then .punct
      else .word

/-- A comment or a slash, whose first slash stands before `rest`. -/
def slash (rest : Bytes) : Except Fault (Piece × Nat) :=
  if rest.head? = some (byte '/') then
    .ok (.lineComment, (rest.takeWhile (· != byte '\n')).length)
  else if rest.head? = some (byte '*') then
    match Extent.comment? 1 (rest.drop 1) with
    | some n => .ok (.blockComment, n + 1)
    | none => .error .unterminatedComment
  else .ok (.punct (rest.head?.any punctuation.contains), 0)

theorem at?_eq (b : UInt8) (rest : Bytes) :
    at? b rest =
      match lead b with
      | .space => .ok (.blank, 0)
      | .slash => slash rest
      | .opening d => .ok (.opening d, 0)
      | .closing d => .ok (.closing d, 0)
      | .quote => literalOf .unterminatedString (Extent.string? rest) rest
      | .tick => tick rest
      | .digit => .ok (.literal, Extent.number (b == byte '0' &&
          (rest.head? == some (byte 'x') || rest.head? == some (byte 'X'))) false b rest)
      | .punct => .ok (.punct (rest.head?.any punctuation.contains), 0)
      | .word => word b rest := by
  unfold at? lead slash
  by_cases hs : isSpace b = true
  · simp only [hs, if_true]
  simp only [Bool.eq_false_iff.2 hs, Bool.false_eq_true, if_false]
  by_cases hb : b = byte '/'
  · subst hb
    have ho : Delimiter.opened? (byte '/') = none := by decide
    have hc : Delimiter.closed? (byte '/') = none := by decide
    have hq : (byte '/' == byte '"') = false := by decide
    have ht : (byte '/' == byte '\'') = false := by decide
    have hd : isDigitByte (byte '/') = false := by decide
    have hp : punctuation.contains (byte '/') = true := by decide
    cases Extent.comment? 1 (rest.drop 1) <;>
      simp only [beq_self_eq_true, Bool.true_and, beq_iff_eq, if_true, ho, hc, hq, ht, hd, hp,
        Bool.false_eq_true, if_false]
  simp only [beq_eq_false_iff_ne.2 hb, Bool.false_and, Bool.false_eq_true, if_false]
  cases Delimiter.opened? b with
  | some d => rfl
  | none =>
    cases Delimiter.closed? b with
    | some d => rfl
    | none =>
      simp only
      by_cases h1 : (b == byte '"') = true
      · simp only [h1, if_true]
      by_cases h2 : (b == byte '\'') = true
      · simp only [h1, h2, if_true, if_false, Bool.false_eq_true]
      by_cases h3 : isDigitByte b = true
      · simp only [h1, h2, h3, if_true, if_false, Bool.false_eq_true]
      by_cases h4 : punctuation.contains b = true
      · simp only [h1, h2, h3, h4, if_true, if_false, Bool.false_eq_true]
      · simp only [h1, h2, h3, h4, if_false, Bool.false_eq_true]

theorem isRunByte_of_punctuation : ∀ c ∈ punctuation, isRunByte c = false := by decide +kernel

theorem ne_of_isRunByte {b c : UInt8} (hb : isRunByte b = true) (hc : isRunByte c = false) :
    b ≠ c := by
  rintro rfl
  rw [hb] at hc
  exact absurd hc (by simp)

theorem lead_of_isRunByte {b : UInt8} (h : isRunByte b = true) :
    lead b = if isDigitByte b then .digit else .word := by
  have hs : isSpace b = false := by
    simp only [isSpace, List.contains_eq_mem, decide_eq_false_iff_not, List.mem_cons, not_or]
    refine ⟨?_, ?_, ?_, ?_, ?_, ?_, by simp⟩ <;> exact ne_of_isRunByte h (by decide)
  have ho : Delimiter.opened? b = none := by
    rw [Delimiter.opened?, List.find?_eq_none]
    intro d _ hd
    rw [decide_eq_true_eq] at hd
    cases d <;> exact ne_of_isRunByte h (by decide) hd.symm
  have hc : Delimiter.closed? b = none := by
    rw [Delimiter.closed?, List.find?_eq_none]
    intro d _ hd
    rw [decide_eq_true_eq] at hd
    cases d <;> exact ne_of_isRunByte h (by decide) hd.symm
  have hp : punctuation.contains b = false := by
    rw [List.contains_eq_mem, decide_eq_false_iff_not]
    exact fun hm => ne_of_isRunByte h (isRunByte_of_punctuation b hm) rfl
  have h1 : (b == byte '/') = false := beq_eq_false_iff_ne.2 (ne_of_isRunByte h (by decide))
  have h2 : (b == byte '"') = false := beq_eq_false_iff_ne.2 (ne_of_isRunByte h (by decide))
  have h3 : (b == byte '\'') = false := beq_eq_false_iff_ne.2 (ne_of_isRunByte h (by decide))
  simp only [lead, hs, h1, ho, hc, h2, h3, hp, Bool.false_eq_true, if_false]

theorem eq_of_lead_slash {b : UInt8} (h : lead b = .slash) : b = byte '/' := by
  by_contra hb
  have h1 : (b == byte '/') = false := beq_eq_false_iff_ne.2 hb
  simp only [lead, h1, Bool.false_eq_true, if_false] at h
  split at h
  · simp at h
  split at h
  · simp at h
  · simp at h
  · repeat' split at h
    all_goals simp at h

theorem isRunByte_eq_false {b : UInt8} (hd : lead b ≠ .digit) (hw : lead b ≠ .word) :
    isRunByte b = false := by
  by_contra h
  have hlead := lead_of_isRunByte (by simpa using h)
  split at hlead
  · exact hd hlead
  · exact hw hlead

/-- No letter, digit or tail of a character stands at the end of the text. -/
def Closed (text : Bytes) : Prop := ∃ c, text.getLast? = some c ∧ isRunByte c = false

theorem closed_singleton {b : UInt8} (hd : lead b ≠ .digit) (hw : lead b ≠ .word) : Closed [b] :=
  ⟨b, rfl, isRunByte_eq_false hd hw⟩

/-! ### Comments and numbers -/

theorem slash_inv {rest : Bytes} {piece : Piece} {n : Nat} (h : slash rest = .ok (piece, n)) :
    ∃ x y, rest = x ++ y ∧ x.length = n ∧
      (y.head?.any isWordByte = false ∨ Closed (byte '/' :: x)) ∧
      ∀ y', Alike y y' → slash (x ++ y') = .ok (piece, n) := by
  unfold slash at h
  split at h
  · -- a line comment
    rename_i hhead
    obtain ⟨r, rfl⟩ := List.head?_eq_some_iff.1 hhead
    obtain ⟨rfl, rfl⟩ := Prod.mk.inj (Except.ok.inj h)
    have hend : ((byte '/' :: r).dropWhile (· != byte '\n')).head?.all (· == byte '\n') = true := by
      have := head?_dropWhile_any (· != byte '\n') (byte '/' :: r)
      cases hd : ((byte '/' :: r).dropWhile (· != byte '\n')).head? with
      | none => rfl
      | some c => simpa [hd] using this
    refine ⟨_, _, List.takeWhile_append_dropWhile.symm, rfl, .inl ?_, fun y' ha => ?_⟩
    · cases hd : ((byte '/' :: r).dropWhile (· != byte '\n')).head? with
      | none => rfl
      | some c =>
        obtain rfl : c = byte '\n' := by simpa [hd] using hend
        decide
    · have hy' : y'.head?.any (· != byte '\n') = false := by
        have := ha.lineEnd hend
        cases hd : y'.head? with
        | none => rfl
        | some c => simpa [hd] using this
      have htake := takeWhile_append_of_all
        (fun b hb => List.mem_takeWhile_imp (p := (· != byte '\n')) (l := byte '/' :: r) hb) hy'
      have hslash : (byte '/' != byte '\n') = true := by decide
      unfold slash
      rw [htake, if_pos]
      simp [hslash]
  split at h
  · -- a block comment
    rename_i hhead
    obtain ⟨r, rfl⟩ := List.head?_eq_some_iff.1 hhead
    split at h
    · rename_i m hm
      obtain ⟨rfl, rfl⟩ := Prod.mk.inj (Except.ok.inj h)
      obtain ⟨body, y, hr, hlast, rfl, hz⟩ := Extent.comment?_inv hm
      obtain rfl : r = body ++ y := hr
      have hne : byte '*' ≠ byte '/' := by decide
      refine ⟨byte '*' :: body, y, rfl, rfl, .inr ⟨byte '/', ?_, by decide⟩, fun y' _ => ?_⟩
      · rw [List.getLast?_cons, List.getLast?_cons, hlast (by decide)]
        rfl
      · simp [slash, hne, hz]
    · simp at h
  · -- a slash alone
    rename_i h1 h2
    obtain ⟨rfl, rfl⟩ := Prod.mk.inj (Except.ok.inj h)
    refine ⟨[], rest, rfl, rfl, .inr (closed_singleton (by decide) (by decide)), fun y' ha => ?_⟩
    have h1' : y'.head? ≠ some (byte '/') := fun hc => h1 ((ha.mark _ (by decide)).1 hc)
    have h2' : y'.head? ≠ some (byte '*') := fun hc => h2 ((ha.mark _ (by decide)).1 hc)
    rw [List.nil_append, slash, if_neg h1', if_neg h2', ha.joint]

theorem number_inv {b : UInt8} {rest : Bytes} {n : Nat}
    (h : Extent.number (b == byte '0' &&
      (rest.head? == some (byte 'x') || rest.head? == some (byte 'X'))) false b rest = n) :
    ∃ x y, rest = x ++ y ∧ x.length = n ∧ y.head?.any isWordByte = false ∧
      ∀ y', Alike y y' → Extent.number (b == byte '0' &&
        ((x ++ y').head? == some (byte 'x') || (x ++ y').head? == some (byte 'X'))) false b
          (x ++ y') = n := by
  have hle := Extent.number_le (b == byte '0' &&
    (rest.head? == some (byte 'x') || rest.head? == some (byte 'X'))) false b rest
  obtain ⟨x, y, rfl, hlen⟩ : ∃ x y, rest = x ++ y ∧ x.length = n :=
    ⟨rest.take n, rest.drop n, (List.take_append_drop n rest).symm, by simp; omega⟩
  rw [← hlen] at h ⊢
  have hy := Extent.number_stop h
  refine ⟨x, y, rfl, rfl, hy, fun y' ha => ?_⟩
  have hhex : ((x ++ y').head? == some (byte 'x') || (x ++ y').head? == some (byte 'X')) =
      ((x ++ y).head? == some (byte 'x') || (x ++ y).head? == some (byte 'X')) := by
    cases x with
    | nil =>
      have hnone : ∀ {z : Bytes}, z.head?.any isWordByte = false →
          (z.head? == some (byte 'x') || z.head? == some (byte 'X')) = false := by
        intro z hz
        by_contra hc
        simp only [Bool.not_eq_false, Bool.or_eq_true, beq_iff_eq] at hc
        rcases hc with hc | hc <;> rw [hc] at hz <;> exact absurd hz (by decide)
      rw [List.nil_append, List.nil_append, hnone hy, hnone (ha.word hy)]
    | cons c x => rfl
  rw [hhex]
  exact Extent.number_append h (ha.number _)

/-! ### All elements -/

/-- **What an element depends on.**  An element is cut off behind its last byte, and is read again
in front of any text that is alike. -/
theorem at?_inv {b : UInt8} {rest : Bytes} {piece : Piece} {n : Nat}
    (h : at? b rest = .ok (piece, n)) :
    ∃ x y, rest = x ++ y ∧ x.length = n ∧ (y.head?.any isWordByte = false ∨ Closed (b :: x)) ∧
      ∀ y', Alike y y' → at? b (x ++ y') = .ok (piece, n) := by
  simp only [at?_eq] at h ⊢
  have hclosed : lead b ≠ .digit → lead b ≠ .word → Closed [b] := closed_singleton
  cases hl : lead b with
  | space | opening d | closing d =>
    simp only [hl, Except.ok.injEq, Prod.mk.injEq] at h ⊢
    obtain ⟨rfl, rfl⟩ := h
    exact ⟨[], rest, rfl, rfl, .inr (hclosed (by simp [hl]) (by simp [hl])), by simp⟩
  | slash =>
    simp only [hl] at h ⊢
    obtain ⟨x, y, rfl, rfl, hb, hok⟩ := slash_inv h
    obtain rfl := eq_of_lead_slash hl
    exact ⟨x, y, rfl, rfl, hb, hok⟩
  | quote =>
    simp only [hl] at h ⊢
    obtain ⟨m, hm⟩ := exists_of_literalOf h
    obtain ⟨body, behind, rfl, -, rfl, hz⟩ := Extent.string?_inv hm
    rw [hm] at h
    obtain ⟨suf, y, rfl, rfl, rfl, hy, hok⟩ := literalOf_inv h
    refine ⟨body ++ suf, y, by simp, by simp, .inl hy, fun y' ha => ?_⟩
    rw [List.append_assoc, hz]
    exact hok y' (ha.word hy)
  | tick =>
    simp only [hl] at h ⊢
    obtain ⟨x, y, rfl, rfl, hb, hok⟩ := tick_inv h
    refine ⟨x, y, rfl, rfl, ?_, hok⟩
    rcases hb with rfl | hb
    · exact .inr (hclosed (by simp [hl]) (by simp [hl]))
    · exact .inl hb
  | digit =>
    simp only [hl, Except.ok.injEq, Prod.mk.injEq] at h ⊢
    obtain ⟨rfl, hn⟩ := h
    obtain ⟨x, y, rfl, rfl, hy, hok⟩ := number_inv hn
    exact ⟨x, y, rfl, rfl, .inl hy, fun y' ha => ⟨rfl, hok y' ha⟩⟩
  | punct =>
    simp only [hl, Except.ok.injEq, Prod.mk.injEq] at h ⊢
    obtain ⟨rfl, rfl⟩ := h
    refine ⟨[], rest, rfl, rfl, .inr (hclosed (by simp [hl]) (by simp [hl])), fun y' ha => ?_⟩
    rw [List.nil_append, ha.joint]
    exact ⟨rfl, rfl⟩
  | word =>
    simp only [hl] at h ⊢
    obtain ⟨x, y, rfl, rfl, hy, hok⟩ := word_inv h
    exact ⟨x, y, rfl, rfl, .inl hy, hok⟩

section

variable {b : UInt8} {x y : Bytes} {piece : Piece}

theorem at?_again (h : at? b (x ++ y) = .ok (piece, x.length)) {y' : Bytes} (ha : Alike y y') :
    at? b (x ++ y') = .ok (piece, x.length) := by
  obtain ⟨x', z, heq, hlen, -, hok⟩ := at?_inv h
  obtain ⟨rfl, rfl⟩ := List.append_inj heq.symm hlen
  exact hok y' ha

/-- A letter or a digit stands only behind an element that ends with neither. -/
theorem at?_closed (h : at? b (x ++ y) = .ok (piece, x.length))
    (hy : y.head?.any isWordByte = true) : Closed (b :: x) := by
  obtain ⟨x', z, heq, hlen, hb, -⟩ := at?_inv h
  obtain ⟨rfl, rfl⟩ := List.append_inj heq.symm hlen
  exact hb.resolve_left (by simp [hy])

theorem at?_eq_word (hl : lead b = .word) (rest : Bytes) : at? b rest = word b rest := by
  rw [at?_eq, hl]

theorem at?_name (h : IsName (b :: x)) (hid : Extent.identifier y = 0)
    (hy : ∀ c, y.head? = some c → c ∉ hazards) : at? b (x ++ y) = .ok (.ident, x.length) := by
  have hbytes := h.run.forall_mem
  have hlead : lead b = .word := by
    have hb : isRunByte b = true := by simpa [isRunByte] using hbytes b (by simp)
    rw [lead_of_isRunByte hb, if_neg]
    rcases h.head with ⟨-, hd⟩ | hge
    · simp [hd]
    · simp only [isDigitByte, Bool.and_eq_true, decide_eq_true_eq, not_and]
      intro _ hle
      exact absurd (UInt8.le_trans hge hle) (by decide)
  have hx : ∀ c ∈ x, isWordByte c = true ∨ 0x80 ≤ c := fun c hc => hbytes c (by simp [hc])
  rw [at?_eq_word hlead]
  exact word_name h (Plain.of_run hx hid hy) hid

theorem literalOf_ne_ident {fault : Fault} {extent : Option Nat} {rest : Bytes} {n : Nat} :
    literalOf fault extent rest ≠ .ok (.ident, n) := by
  cases extent <;> simp [literalOf]

theorem rawOf_ne_ident {lead : Nat} {rest : Bytes} {n : Nat} :
    rawOf lead rest ≠ .ok (.ident, n) := by
  unfold rawOf
  simp only
  split
  · exact literalOf_ne_ident
  · simp

theorem lead_of_at?_ident {n : Nat} {rest : Bytes} (h : at? b rest = .ok (.ident, n)) :
    lead b = .word := by
  rw [at?_eq] at h
  split at h <;> rename_i hl <;> try simp at h
  · unfold slash at h
    split at h
    · simp at h
    split at h
    · split at h <;> simp at h
    · simp at h
  · exact absurd h literalOf_ne_ident
  · unfold tick at h
    split at h
    · exact absurd h literalOf_ne_ident
    split at h <;> simp at h
  · exact hl

/-- What is read as an identifier is a name, maybe a raw one. -/
theorem at?_ident (h : at? b (x ++ y) = .ok (.ident, x.length)) :
    startsIdent (b :: (x ++ y)) = true ∧ Extent.identifier y = 0 ∧
      (IsName (b :: x) ∨ b = byte 'r' ∧ x.head? = some (byte '#')) := by
  have hl := lead_of_at?_ident h
  rw [at?_eq_word hl] at h
  rcases word_cases b (x ++ y) with ⟨rfl, r, hr, hq, hs⟩ | ⟨rfl, hq⟩ | ⟨hb, r, hr⟩ | ⟨rfl, r, hr⟩ |
    ⟨hb, hr, hq⟩ | hp
  · obtain ⟨name, z, rfl, hname, hz⟩ := IsName.exists_of_startsIdent hs
    rw [hr] at h
    have hlen := (Prod.mk.inj (Except.ok.inj ((word_rawName hq hs).symm.trans h))).2
    rw [hname.run.identifier_append, hz] at hlen
    have heq : (byte '#' :: name) ++ z = x ++ y := hr.symm
    obtain ⟨rfl, rfl⟩ := List.append_inj heq (by simp; omega)
    refine ⟨?_, hz, .inr ⟨rfl, rfl⟩⟩
    exact startsIdent_append (show startsIdent [byte 'r'] = true by decide +kernel) _
  · rw [word_rawString hq] at h
    exact absurd h rawOf_ne_ident
  · rw [hr, word_string hb] at h
    exact absurd h literalOf_ne_ident
  · rw [hr, word_char] at h
    exact absurd h literalOf_ne_ident
  · rw [word_rawBytes hb hr hq] at h
    exact absurd h rawOf_ne_ident
  · rw [word_plain hp] at h
    split at h
    · rename_i hs
      obtain ⟨name, z, heq, hname, hz⟩ := IsName.exists_of_startsIdent hs
      have hlen := (Prod.mk.inj (Except.ok.inj h)).2
      rw [heq, hname.run.identifier_append, hz] at hlen
      have hpos := List.length_pos_iff.2 hname.ne_nil
      have heq' : name ++ z = (b :: x) ++ y := heq.symm
      obtain ⟨rfl, rfl⟩ := List.append_inj heq' (by simp; omega)
      exact ⟨hs, hz, .inl hname⟩
    · simp at h

/-- Above ASCII only identifiers are read. -/
theorem at?_above (h : at? b (x ++ y) = .ok (piece, x.length)) (hb : 0x80 ≤ b) :
    piece = .ident := by
  have hd : isDigitByte b = false := by
    by_contra hd
    simp only [isDigitByte, Bool.not_eq_false, Bool.and_eq_true, decide_eq_true_eq] at hd
    exact absurd (UInt8.le_trans hb hd.2) (by decide)
  have hl : lead b = .word := by
    rw [lead_of_isRunByte (by simp [isRunByte, hb]), if_neg (by simp [hd])]
  rw [at?_eq_word hl] at h
  have hne : ∀ c < 0x80, b ≠ c := by
    rintro c hc rfl
    exact absurd hc (by simpa using hb)
  rcases word_cases b (x ++ y) with ⟨hr, -⟩ | ⟨hr, -⟩ | ⟨hr, -⟩ | ⟨hr, -⟩ | ⟨hr, -⟩ | hp
  · exact absurd hr (hne _ (by decide))
  · exact absurd hr (hne _ (by decide))
  · rcases hr with hr | hr <;> exact absurd hr (hne _ (by decide))
  · exact absurd hr (hne _ (by decide))
  · rcases hr with hr | hr <;> exact absurd hr (hne _ (by decide))
  · rw [word_plain hp] at h
    split at h
    · exact ((Prod.mk.inj (Except.ok.inj h)).1).symm
    · simp at h

end

end GetterRename.Piece
