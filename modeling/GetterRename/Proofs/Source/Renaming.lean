import GetterRename.Proofs.Source.Rewording

/-!
# Reading after renaming

Names in a text are replaced by other names, in the code and in comments, a newline may be put at
its end, and elements that are read anywhere may be put at the start of a line.  What was an element
before is one afterwards: each element is followed by a text alike, a new name stands where no
literal comes of it, and a newline does not see what is behind it.

* `Element.Free` — elements that are read in front of any text;
* `Renamed` — elements and the same elements with some names replaced;
* `Near` — the texts before and after, seen from the element in front of them;
* `Reads.renamed` — the text after renaming is read as the renamed elements.
-/

namespace GetterRename

namespace Element

def newline : Element := ⟨.blank, [byte '\n']⟩

/-- The elements are read in front of any text. -/
def Free (es₀ : List Element) : Prop :=
  ∀ es, Reads (textL es) es → Reads (textL (es₀ ++ es)) (es₀ ++ es)

end Element

/-- Elements before and after renaming. A name to be replaced starts with a letter, and no hazard
stands behind it. -/
inductive Renamed : List Element → List Element → Prop where
  | nil : Renamed [] []
  | newline : Renamed [] [⟨.blank, [byte '\n']⟩]
  | keep (e : Element) {es es' : List Element} (rest : Renamed es es') :
      Renamed (e :: es) (e :: es')
  | rename {old new : Bytes} {es es' : List Element} (hold : old.head?.any isWordByte = true)
      (hnew : IsName new) (hnext : ∀ c, (Element.textL es).head? = some c → c ∉ Piece.hazards)
      (rest : Renamed es es') : Renamed (⟨.ident, old⟩ :: es) (⟨.ident, new⟩ :: es')
  | comment {piece : Piece} {old new : Bytes} {es es' : List Element}
      (hpiece : piece = .lineComment ∨ piece = .blockComment) (words : Reworded old new)
      (rest : Renamed es es') : Renamed (⟨piece, old⟩ :: es) (⟨piece, new⟩ :: es')
  | front {es₀ es es' : List Element} (free : Element.Free es₀) (rest : Renamed es es') :
      Renamed (.newline :: es) (.newline :: (es₀ ++ es'))

theorem Renamed.append_newline {es last : List Element} (h : last = [] ∨ last = [.newline]) :
    Renamed es (es ++ last) := by
  induction es with
  | nil =>
    rcases h with rfl | rfl
    · exact .nil
    · exact .newline
  | cons e es ih => exact .keep e ih

/-- The text `y'` stands where `y` stood: alike for the element in front of it, and for the element
in front of that one. -/
structure Near (y y' : Bytes) : Prop extends Piece.Alike y y' where
  start : startsIdent y = false → startsIdent y' = false
  digit : y.head?.any isDigitByte = false → y'.head?.any isDigitByte = false

namespace Near

theorem refl (y : Bytes) : Near y y :=
  ⟨⟨id, id, fun _ _ _ => id, id, rfl, fun _ _ => Iff.rfl, id, id⟩, id, id⟩

theorem newline : Near [] [byte '\n'] := by
  refine ⟨⟨fun _ => by decide, fun _ => by decide +kernel, fun isHex hasPoint last _ => ?_,
    fun _ => by decide, by decide, by decide +kernel, fun _ => by decide, fun h => ?_⟩,
    fun _ => by decide +kernel, fun _ => by decide⟩
  · have h1 : isWordByte (byte '\n') = false := by decide
    have h2 : (byte '\n' == byte '.') = false := by decide
    have h3 : (byte '\n' == byte '+' || byte '\n' == byte '-') = false := by decide
    simp [Extent.number, h1, h2, h3]
  · exact absurd h (by decide +kernel)

theorem startsIdent_ascii {b : UInt8} (hb : b < 0x80) (rest : Bytes) :
    startsIdent (b :: rest) = isIdentStart b.toNat := by
  simp [startsIdent, Utf8.headCode, Utf8.decode?_ascii hb]

theorem identifier_ascii {b : UInt8} (hb : b < 0x80) (rest : Bytes) :
    Extent.identifier (b :: rest) = if isWordByte b then 1 + Extent.identifier rest else 0 := by
  have := @Extent.identifier_char [b] b.toNat rest (by simp) (Utf8.decode?_ascii hb rest)
  rwa [List.singleton_append, isIdentContinue_toNat hb] at this

theorem number_cons_eq_zero {isHex hasPoint : Bool} {last b : UInt8} {rest rest' : Bytes}
    (h : Extent.number isHex hasPoint last (b :: rest) = 0)
    (hd : rest.head?.any isDigitByte = false → rest'.head?.any isDigitByte = false) :
    Extent.number isHex hasPoint last (b :: rest') = 0 := by
  simp only [Extent.number] at h ⊢
  split at h
  · simp at h
  rename_i h1
  rw [if_neg h1]
  split at h
  · simp at h
  rename_i h2
  split at h
  · simp at h
  rename_i h3
  rw [if_neg ?_, if_neg h3]
  intro hc
  simp only [Bool.and_eq_true] at h2 hc
  have := hd (by simpa [hc.1.1, hc.1.2] using h2)
  rw [this] at hc
  exact absurd hc.2 (by simp)

theorem exists_within {b : UInt8} {x y : Bytes} {piece : Piece}
    (h : Piece.at? b (x ++ y) = .ok (piece, x.length)) (hs : startsIdent (b :: (x ++ y)) = true) :
    ∃ char m code, b :: x = char ++ m ∧ IsChar char code ∧ isIdentStart code = true := by
  obtain ⟨char, r, code, heq, hc, hstart⟩ := exists_char_of_startsIdent hs
  rcases hc.ascii_or with ⟨c, -, rfl, rfl⟩ | hge
  · obtain ⟨rfl, -⟩ := List.cons.inj heq
    exact ⟨[b], x, _, rfl, hc, hstart⟩
  have hb : 0x80 ≤ b := by
    obtain ⟨c, char, rfl⟩ := List.exists_cons_of_ne_nil hc.ne_nil
    obtain ⟨rfl, -⟩ := List.cons.inj heq
    exact hge b (by simp)
  obtain rfl := Piece.at?_above h hb
  have hname : IsName (b :: x) := by
    refine (Piece.at?_ident h).2.2.resolve_right ?_
    rintro ⟨rfl, -⟩
    exact absurd hb (by decide)
  obtain ⟨char', m, code', heq', hc', -⟩ := hname.run.exists_char (by simp)
  refine ⟨char', m, code', heq', hc', ?_⟩
  have hdec := hc'.decode? (m ++ y)
  rw [← List.append_assoc, ← heq', List.cons_append, heq, hc.decode? r] at hdec
  obtain ⟨rfl, -⟩ := Prod.mk.inj (Option.some.inj hdec)
  exact hstart

theorem tick_iff {rest : Bytes} : Piece.tick rest = .ok (.punct true, 0) ↔
    Piece.isCharacter rest = false ∧ startsIdent rest = true := by
  have heq : Piece.tick rest = if Piece.isCharacter rest then
      Piece.literalOf .unterminatedChar (Extent.character? rest) rest
    else if startsIdent rest then .ok (.punct true, 0)
    else .error (.unexpected '\''.toNat) := rfl
  rw [heq]
  cases Piece.isCharacter rest with
  | true => cases Extent.character? rest <;> simp [Piece.literalOf]
  | false => cases startsIdent rest <;> simp

theorem isCharacter_char_iff {char : Bytes} {code : Nat} (hc : IsChar char code)
    (hb : char.head? ≠ some (byte '\\')) (z : Bytes) :
    Piece.isCharacter (char ++ z) = (z.head? == some (byte '\'')) := by
  have hhead : (char ++ z).head? ≠ some (byte '\\') := by
    obtain ⟨c, char, rfl⟩ := List.exists_cons_of_ne_nil hc.ne_nil
    simpa using hb
  have hsize := Piece.headSize_char z (hc.decode? z)
  rw [Piece.isCharacter, hsize, List.getElem?_append_right (Nat.le_refl _), Nat.sub_self,
    ← List.head?_eq_getElem?, decide_eq_false hhead, Bool.false_or, beq_eq_decide]

/-- The texts stay near each other behind an element that is kept. -/
theorem keep {b : UInt8} {x y y' : Bytes} {piece : Piece}
    (h : Piece.at? b (x ++ y) = .ok (piece, x.length)) (hn : Near y y') :
    Near (b :: (x ++ y)) (b :: (x ++ y')) := by
  -- the element is an identifier, or its first byte decides
  have hkind : startsIdent (b :: (x ++ y)) = true ∨ b < 0x80 := by
    by_cases hb : b < 0x80
    · exact .inr hb
    · obtain rfl := Piece.at?_above h (by simpa using hb)
      exact .inl (Piece.at?_ident h).1
  have hdigit : (x ++ y).head?.any isDigitByte = false →
      (x ++ y').head?.any isDigitByte = false := by
    cases x with
    | nil => exact hn.digit
    | cons c x => exact id
  refine ⟨⟨id, fun hid => ?_, fun _ _ _ hz => number_cons_eq_zero hz hdigit, id, rfl,
    fun _ _ => Iff.rfl, fun hraw => ?_, fun htick => ?_⟩, fun hs => ?_, id⟩
  · rcases hkind with hs | hb
    · exact absurd hid (Nat.pos_iff_ne_zero.1 (identifier_pos_of_startsIdent hs))
    · rw [identifier_ascii hb] at hid ⊢
      split at hid
      · omega
      · rename_i hw
        rw [if_neg hw]
  · -- behind a hash stands another element
    by_cases hb : b = byte '#'
    · subst hb
      have hx : x = [] := by
        have hl : Piece.lead (byte '#') = .punct := by decide
        rw [Piece.at?_eq, hl] at h
        exact List.eq_nil_of_length_eq_zero (Prod.mk.inj (Except.ok.inj h)).2.symm
      subst hx
      simp only [Piece.isRawHash, List.nil_append, List.head?_cons, beq_self_eq_true, Bool.true_and,
        List.getElem?_cons_succ, List.drop_succ_cons, List.drop_zero, ← List.head?_eq_getElem?,
        Bool.or_eq_false_iff] at hraw ⊢
      exact ⟨by rw [hn.isQuoteOrHash_eq, hraw.1], hn.start hraw.2⟩
    · simp [Piece.isRawHash, hb]
  · rw [tick_iff] at htick ⊢
    obtain ⟨hchar, hs⟩ := htick
    obtain ⟨char, m, code, heq, hc, hstart⟩ := exists_within h hs
    have hb : char.head? ≠ some (byte '\\') := by
      intro hhead
      obtain ⟨t, rfl⟩ := List.head?_eq_some_iff.1 hhead
      obtain ⟨rfl, -⟩ := List.cons.inj heq
      simp [Piece.isCharacter] at hchar
    rw [← List.cons_append, heq, List.append_assoc] at hchar ⊢
    rw [isCharacter_char_iff hc hb] at hchar ⊢
    refine ⟨?_, by rw [startsIdent_char hc, hstart]⟩
    cases m with
    | nil =>
      rw [List.nil_append, beq_eq_false_iff_ne] at hchar ⊢
      exact fun hq => hchar ((hn.mark _ (by decide)).1 hq)
    | cons c m => exact hchar
  · rcases hkind with hs' | hb
    · rw [hs'] at hs
      exact absurd hs (by simp)
    · rw [startsIdent_ascii hb] at hs ⊢
      exact hs

/-- What stands behind a slash or a newline does not matter for what stands in front of it. -/
theorem behind {b : UInt8} (hb : b = byte '/' ∨ b = byte '\n') (y y' : Bytes) :
    Near (b :: y) (b :: y') := by
  obtain ⟨hascii, hword, hpoint, hsign, hhash, hstart⟩ : b < 0x80 ∧ isWordByte b = false ∧
      (b == byte '.') = false ∧ (b == byte '+' || b == byte '-') = false ∧
      (b == byte '#') = false ∧ isIdentStart b.toNat = false := by
    rcases hb with rfl | rfl <;> decide +kernel
  have hs : ∀ z, startsIdent (b :: z) = false := fun z => by rw [startsIdent_ascii hascii, hstart]
  refine ⟨⟨id, fun _ => ?_, fun isHex hasPoint last _ => ?_, id, rfl, fun _ _ => Iff.rfl,
    fun _ => ?_, fun htick => ?_⟩, fun _ => hs y', id⟩
  · rw [identifier_ascii hascii, if_neg (by simp [hword])]
  · simp [Extent.number, hword, hpoint, hsign]
  · simp [Piece.isRawHash, hhash]
  · rw [tick_iff, hs y] at htick
    exact absurd htick.2 (by simp)

theorem isRunByte_of_marks : ∀ c ∈ Piece.marks, isRunByte c = false := by decide +kernel

theorem not_mem_marks_of_isRunByte {b : UInt8} (h : isRunByte b = true) :
    b ∉ Piece.marks ∧ Piece.punctuation.contains b = false ∧ b ≠ byte '\n' ∧ b ≠ byte '\\' := by
  refine ⟨fun hm => ?_, ?_, Piece.ne_of_isRunByte h (by decide), Piece.ne_of_isRunByte h (by decide)⟩
  · exact Piece.ne_of_isRunByte h (isRunByte_of_marks b hm) rfl
  · rw [List.contains_eq_mem, decide_eq_false_iff_not]
    exact fun hm => Piece.ne_of_isRunByte h (Piece.isRunByte_of_punctuation b hm) rfl

theorem rename {old new y y' : Bytes} (hold : old.head?.any isWordByte = true) (hnew : IsName new)
    (hs : startsIdent (old ++ y) = true) (hy : ∀ c, y.head? = some c → c ∉ Piece.hazards)
    (hn : Near y y') : Near (old ++ y) (new ++ y') := by
  obtain ⟨c, old, rfl⟩ : ∃ c old', old = c :: old' := by
    cases old with
    | nil => simp at hold
    | cons c old => exact ⟨c, old, rfl⟩
  have hc : isWordByte c = true := hold
  obtain ⟨d, new, rfl⟩ := List.exists_cons_of_ne_nil hnew.ne_nil
  have hd : isRunByte d = true := by simpa [isRunByte] using hnew.run.forall_mem d (by simp)
  have hrun : isRunByte c = true := by simp [isRunByte, hc]
  obtain ⟨hc1, hc2, hc3, -⟩ := not_mem_marks_of_isRunByte hrun
  obtain ⟨hd1, hd2, hd3, hd4⟩ := not_mem_marks_of_isRunByte hd
  simp only [List.cons_append] at hs ⊢
  refine ⟨⟨fun hw => ?_, fun hid => ?_, fun isHex hasPoint last hz => ?_, fun hl => ?_, ?_,
    fun m hm => ?_, fun _ => ?_, fun _ => ?_⟩, fun hs' => ?_, fun _ => ?_⟩
  · exact absurd (show isWordByte c = false from hw) (by simp [hc])
  · exact absurd hid (Piece.identifier_ne_zero hc _)
  · simp [Extent.number, hc] at hz
  · exact absurd (by simpa using hl) hc3
  · show Piece.punctuation.contains d = Piece.punctuation.contains c
    rw [hc2, hd2]
  · constructor
    · intro h
      obtain rfl : d = m := by simpa using h
      exact absurd hm hd1
    · intro h
      obtain rfl : c = m := by simpa using h
      exact absurd hm hc1
  · have : d ≠ byte '#' := by
      rintro rfl
      exact hd1 (by decide)
    simp [Piece.isRawHash, this]
  · rw [tick_iff, ← List.cons_append]
    obtain ⟨char, m, code, heq, hchar, hrun⟩ := hnew.run.exists_char (by simp)
    have hb : char.head? ≠ some (byte '\\') := by
      intro hhead
      obtain ⟨t, rfl⟩ := List.head?_eq_some_iff.1 hhead
      exact hd4 (List.cons.inj heq).1
    refine ⟨?_, startsIdent_append hnew.start y'⟩
    rw [heq, List.append_assoc, isCharacter_char_iff hchar hb, beq_eq_false_iff_ne]
    cases m with
    | nil =>
      intro hq
      exact hy _ ((hn.mark _ (by decide)).1 hq) (by decide)
    | cons a m =>
      intro hq
      obtain rfl : a = byte '\'' := by simpa using hq
      exact absurd (hrun.forall_mem (byte '\'') (by simp)) (by decide)
  · rw [hs] at hs'
    exact absurd hs' (by simp)
  · rcases hnew.head with ⟨-, hdig⟩ | hge
    · simpa using hdig
    · show isDigitByte d = false
      by_contra hdig
      simp only [isDigitByte, Bool.not_eq_false, Bool.and_eq_true, decide_eq_true_eq] at hdig
      exact absurd (UInt8.le_trans hge hdig.2) (by decide)

end Near

/-- **Reading after renaming.**  The renamed elements are the elements of their own text. -/
theorem Reads.renamed {text : Bytes} {es es' : List Element} (h : Reads text es)
    (hr : Renamed es es') :
    Reads (Element.textL es') es' ∧ Near (Element.textL es) (Element.textL es') := by
  induction hr generalizing text with
  | nil => exact ⟨.done, .refl _⟩
  | newline =>
    have hat : Piece.at? (byte '\n') ([] ++ []) = .ok (.blank, 0) := by decide
    exact ⟨.next hat .done, Near.newline⟩
  | keep e rest ih =>
    cases h with
    | @next b x y piece es element reads =>
      obtain ⟨hread, hnear⟩ := ih reads
      rw [reads.textL_eq] at hnear
      simp only [Element.textL_cons, reads.textL_eq]
      exact ⟨.next (Piece.at?_again element hnear.toAlike) hread, hnear.keep element⟩
  | @rename old new es es' hold hnew hnext rest ih =>
    cases h with
    | @next b x y piece es element reads =>
      obtain ⟨hread, hnear⟩ := ih reads
      obtain ⟨hs, hid, -⟩ := Piece.at?_ident element
      rw [reads.textL_eq] at hnear hnext
      simp only [Element.textL_cons, reads.textL_eq]
      refine ⟨?_, Near.rename hold hnew hs hnext hnear⟩
      obtain ⟨d, new, rfl⟩ := List.exists_cons_of_ne_nil hnew.ne_nil
      refine .next (Piece.at?_name hnew (hnear.ident hid) fun c hc hz => ?_) hread
      exact hnext c ((hnear.mark c (Piece.hazards_subset_marks hz)).1 hc) hz

  | @comment piece old new es es' hpiece words rest ih =>
    cases h with
    | @next b x y piece es element reads =>
      obtain ⟨hread, hnear⟩ := ih reads
      have hold := Piece.spells_of_at? element
      have hnew := words.spells hpiece hold
      rw [reads.textL_eq] at hnear
      simp only [Element.textL_cons, reads.textL_eq]
      obtain rfl : b = byte '/' := by
        rcases hpiece with rfl | rfl
        · obtain ⟨⟨inner, hinner⟩, -⟩ := hold
          exact (List.cons.inj hinner).1.symm
        · obtain ⟨inner, hinner, -⟩ := hold
          exact (List.cons.inj hinner).1
      obtain ⟨x', rfl, -⟩ := words.exists_of_cons (by decide)
      refine ⟨.next ?_ hread, Near.behind (.inl rfl) _ _⟩
      rcases hpiece with rfl | rfl
      · exact Piece.at?_lineComment hnew (hnear.lineEnd (Piece.lineEnd_of_at? element))
      · exact Piece.at?_blockComment hnew _
  | @front es₀ es es' free rest ih =>
    cases h with
    | @next b x y piece es element reads =>
      obtain ⟨hread, -⟩ := ih reads
      have hat : Piece.at? (byte '\n') ([] ++ Element.textL (es₀ ++ es')) = .ok (.blank, 0) := rfl
      exact ⟨.next hat (free es' hread), Near.behind (.inr rfl) _ _⟩

end GetterRename
