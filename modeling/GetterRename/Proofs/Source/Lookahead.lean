import GetterRename.Proofs.Source.Extent
import GetterRename.Source.Event

/-!
# What a lexical element depends on

An element is its own bytes and a look at what follows them.  Two texts are *alike* when no element
that ends in front of them can tell one from the other; an element read in front of a text is read
again in front of any text alike.

* `Piece.Alike` — what an element can see behind its last byte;
* `Piece.literalOf_inv`, `Piece.rawOf_inv` — literals with their suffix;
* `Piece.tick_inv` — characters and lifetimes;
* `Piece.word_inv` — names and literals with a letter before their quote.
-/

namespace GetterRename.Piece

/-- The bytes that have a meaning right behind an element, besides those that continue it. -/
def marks : Bytes := "/*\"'#"

/-- The marks that make a literal or a raw name of a name in front of them. -/
def hazards : Bytes := "\"'#"

theorem hazards_subset_marks : hazards ⊆ marks := by decide

def isQuoteOrHash (b : Option UInt8) : Bool := b == some (byte '"') || b == some (byte '#')

/-- A hash that makes a raw name or a raw string of an `r` in front of it. -/
def isRawHash (text : Bytes) : Bool :=
  text.head? == some (byte '#') && (isQuoteOrHash text[1]? || startsIdent (text.drop 1))

/-- No element that ends before `y` can tell `y'` from `y`. -/
structure Alike (y y' : Bytes) : Prop where
  word : y.head?.any isWordByte = false → y'.head?.any isWordByte = false
  ident : Extent.identifier y = 0 → Extent.identifier y' = 0
  number : ∀ isHex hasPoint last, Extent.number isHex hasPoint last y = 0 →
    Extent.number isHex hasPoint last y' = 0
  lineEnd : y.head?.all (· == byte '\n') = true → y'.head?.all (· == byte '\n') = true
  joint : y'.head?.any punctuation.contains = y.head?.any punctuation.contains
  mark : ∀ c ∈ marks, (y'.head? = some c ↔ y.head? = some c)
  rawHash : isRawHash y = false → isRawHash y' = false
  tick : Piece.tick y = .ok (.punct true, 0) → Piece.tick y' = .ok (.punct true, 0)

/-! ### Literals -/

theorem any_head?_eq_false {p : UInt8 → Bool} {text : Bytes} :
    text.head?.any p = false ↔ ∀ b, text.head? = some b → p b = false := by
  cases text <;> simp

theorem exists_of_literalOf {fault : Fault} {extent : Option Nat} {rest : Bytes}
    {found : Piece × Nat} (h : literalOf fault extent rest = .ok found) : ∃ m, extent = some m := by
  cases extent with
  | none => simp [literalOf] at h
  | some m => exact ⟨m, rfl⟩

theorem literalOf_inv {fault : Fault} {body rest : Bytes} {piece : Piece} {n : Nat}
    (h : literalOf fault (some body.length) (body ++ rest) = .ok (piece, n)) :
    ∃ suf y, rest = suf ++ y ∧ n = body.length + suf.length ∧ piece = .literal ∧
      y.head?.any isWordByte = false ∧
      ∀ y', y'.head?.any isWordByte = false →
        literalOf fault (some body.length) (body ++ (suf ++ y')) = .ok (piece, n) := by
  simp only [literalOf, Except.ok.injEq, Prod.mk.injEq, List.drop_left] at h
  obtain ⟨rfl, rfl⟩ := h
  have hsuf : Extent.suffix (rest.takeWhile isWordByte ++ rest.dropWhile isWordByte)
      = (rest.takeWhile isWordByte).length := by
    rw [List.takeWhile_append_dropWhile]
    rfl
  obtain ⟨hword, hend⟩ := Extent.suffix_append_iff.1 hsuf
  refine ⟨rest.takeWhile isWordByte, rest.dropWhile isWordByte,
    List.takeWhile_append_dropWhile.symm, rfl, rfl, any_head?_eq_false.2 hend, fun y' hy' => ?_⟩
  simp only [literalOf, List.drop_left]
  rw [Extent.suffix_append_iff.2 ⟨hword, any_head?_eq_false.1 hy'⟩]
  rfl

theorem takeWhile_append_of_all {p : UInt8 → Bool} {word rest : Bytes}
    (h : ∀ b ∈ word, p b = true) (hrest : rest.head?.any p = false) :
    (word ++ rest).takeWhile p = word := by
  rw [List.takeWhile_append_of_pos h]
  cases rest with
  | nil => simp
  | cons b rest => simp at hrest; simp [hrest]

theorem rawOf_eq {pre hashes inner suf y : Bytes} (hh : ∀ b ∈ hashes, (b == byte '#') = true)
    (hi : ∀ z, Extent.through? (byte '"' :: hashes) (inner ++ z) = some inner.length)
    (hs : ∀ b ∈ suf, isWordByte b = true) (hy : y.head?.any isWordByte = false) :
    rawOf pre.length (pre ++ (hashes ++ (byte '"' :: inner ++ (suf ++ y)))) =
      .ok (.literal, (pre ++ (hashes ++ (byte '"' :: inner ++ suf))).length) := by
  have ht : (hashes ++ (byte '"' :: inner ++ (suf ++ y))).takeWhile (· == byte '#') = hashes :=
    takeWhile_append_of_all hh (show (byte '"' == byte '#') = false by decide)
  simp only [rawOf, List.drop_left, ht]
  simp only [List.cons_append, List.head?_cons, if_true, List.drop_one, List.tail_cons, hi,
    Option.map_some, literalOf]
  have hdrop : (pre ++ (hashes ++ byte '"' :: (inner ++ (suf ++ y)))).drop
      (inner.length + (pre.length + hashes.length + 1)) = suf ++ y := by
    have : pre ++ (hashes ++ byte '"' :: (inner ++ (suf ++ y)))
        = (pre ++ (hashes ++ byte '"' :: inner)) ++ (suf ++ y) := by simp
    rw [this, List.drop_append_of_le_length (by simp; omega)]
    rw [List.drop_eq_nil_of_le (by simp; omega), List.nil_append]
  rw [hdrop, Extent.suffix_append_iff.2 ⟨hs, any_head?_eq_false.1 hy⟩]
  simp only [List.length_append, List.length_cons]
  congr 2
  omega

theorem drop_length_takeWhile (p : UInt8 → Bool) (text : Bytes) :
    text.drop (text.takeWhile p).length = text.dropWhile p := by
  induction text with
  | nil => rfl
  | cons b text ih => by_cases hb : p b = true <;> simp [hb, ih]

theorem head?_dropWhile_any (p : UInt8 → Bool) (text : Bytes) :
    (text.dropWhile p).head?.any p = false := by
  have := List.head?_dropWhile_not p text
  cases hd : (text.dropWhile p).head? with
  | none => rfl
  | some b => simpa [hd] using this

theorem rawOf_inv {lead : Nat} {rest : Bytes} {piece : Piece} {n : Nat}
    (h : rawOf lead rest = .ok (piece, n)) :
    ∃ x y, rest = x ++ y ∧ x.length = n ∧ lead + 1 < n ∧ piece = .literal ∧
      y.head?.any isWordByte = false ∧
      ∀ y', y'.head?.any isWordByte = false → rawOf lead (x ++ y') = .ok (piece, n) := by
  obtain ⟨quoted, hquoted⟩ : ∃ quoted,
      (rest.drop lead).dropWhile (· == byte '#') = byte '"' :: quoted := by
    simp only [rawOf, drop_length_takeWhile] at h
    split at h
    · rename_i hq
      obtain ⟨quoted, hq⟩ := List.head?_eq_some_iff.1 hq
      exact ⟨quoted, hq⟩
    · simp at h
  obtain ⟨pre, hashes, hpre, hh, hrest⟩ : ∃ pre hashes : Bytes, pre.length = lead ∧
      (∀ b ∈ hashes, (b == byte '#') = true) ∧ rest = pre ++ (hashes ++ byte '"' :: quoted) := by
    refine ⟨rest.take lead, (rest.drop lead).takeWhile (· == byte '#'), ?_,
      fun b hb => List.mem_takeWhile_imp (p := (· == byte '#')) hb, ?_⟩
    · have : lead < rest.length := by
        by_contra hle
        rw [List.drop_eq_nil_of_le (by omega)] at hquoted
        simp at hquoted
      simp; omega
    · rw [← hquoted, List.takeWhile_append_dropWhile, List.take_append_drop]
  subst hrest hpre
  have ht : (hashes ++ byte '"' :: quoted).takeWhile (· == byte '#') = hashes :=
    takeWhile_append_of_all hh (show (byte '"' == byte '#') = false by decide)
  obtain ⟨m, hm⟩ : ∃ m, Extent.through? (byte '"' :: hashes) quoted = some m := by
    simp only [rawOf, List.drop_left, ht, List.head?_cons, if_true, List.drop_one,
      List.tail_cons] at h
    obtain ⟨_, hlen⟩ := exists_of_literalOf h
    obtain ⟨m, hm, -⟩ := Option.map_eq_some_iff.1 hlen
    exact ⟨m, hm⟩
  obtain ⟨inner, behind, rfl, hle, rfl, hi⟩ := Extent.through?_inv (by simp) hm
  have hs : ∀ b ∈ behind.takeWhile isWordByte, isWordByte b = true :=
    fun b hb => List.mem_takeWhile_imp hb
  have hy := head?_dropWhile_any isWordByte behind
  have hsplit : ∀ z, pre ++ (hashes ++ (byte '"' :: inner ++ (behind.takeWhile isWordByte ++ z))) =
      (pre ++ (hashes ++ (byte '"' :: inner ++ behind.takeWhile isWordByte))) ++ z := by
    intro z
    simp
  have hn := @rawOf_eq pre _ _ _ _ hh hi hs hy
  rw [List.takeWhile_append_dropWhile] at hn
  have hpair := Except.ok.inj (hn.symm.trans h)
  obtain ⟨rfl, rfl⟩ := Prod.mk.inj hpair
  refine ⟨pre ++ (hashes ++ (byte '"' :: inner ++ behind.takeWhile isWordByte)),
    behind.dropWhile isWordByte, ?_, rfl, ?_, rfl, hy, fun y' hy' => ?_⟩
  · rw [← hsplit, List.takeWhile_append_dropWhile]
    rfl
  · simp only [List.length_append, List.length_cons] at hle ⊢
    omega
  · rw [← hsplit]
    exact rawOf_eq hh hi hs hy'

/-! ### Ticks -/

/-- Whether what stands behind a tick makes it a character. -/
def isCharacter (text : Bytes) : Bool :=
  text.head? = some (byte '\\') || text[Utf8.headSize text]? = some (byte '\'')

theorem headSize_char {char : Bytes} {code : Nat} (z : Bytes)
    (h : Utf8.decode? (char ++ z) = some (code, char.length)) :
    Utf8.headSize (char ++ z) = char.length := by
  simp [Utf8.headSize, h]

theorem isCharacter_char {char : Bytes} {code : Nat} (z : Bytes)
    (h : Utf8.decode? (char ++ z) = some (code, char.length))
    (hz : z.head? = some (byte '\'')) : isCharacter (char ++ z) = true := by
  simp [isCharacter, headSize_char z h, List.getElem?_append_right, ← List.head?_eq_getElem?, hz]

theorem character?_plain {word : Bytes}
    (h : ∀ b ∈ word, b ≠ byte '\n' ∧ b ≠ byte '\\' ∧ b ≠ byte '\'') (z : Bytes) :
    Extent.character? (word ++ byte '\'' :: z) = some (word.length + 1) := by
  induction word with
  | nil =>
    have h1 : byte '\'' ≠ byte '\n' := by decide
    have h2 : byte '\'' ≠ byte '\\' := by decide
    cases z <;> simp [Extent.character?, h1, h2]
  | cons b word ih =>
    obtain ⟨⟨h1, h2, h3⟩, htail⟩ := List.forall_mem_cons.1 h
    have hnext := ih htail
    cases word with
    | nil =>
      simp only [List.nil_append] at hnext
      simp [Extent.character?, h1, h2, h3, hnext]
    | cons c word =>
      simp only [List.cons_append] at hnext
      simp [Extent.character?, h1, h2, h3, hnext]

/-- The bytes up to the quote are all of the character. -/
theorem eq_plain {body rest word r : Bytes} (heq : body ++ rest = word ++ byte '\'' :: r)
    (hchar : Extent.character? (body ++ rest) = some body.length)
    (h : ∀ b ∈ word, b ≠ byte '\n' ∧ b ≠ byte '\\' ∧ b ≠ byte '\'') :
    body = word ++ [byte '\''] := by
  rw [heq, character?_plain h, Option.some.injEq] at hchar
  have heq' : body ++ rest = (word ++ [byte '\'']) ++ r := by simpa using heq
  exact List.append_inj_left heq' (by simpa using hchar.symm)

theorem ne_of_above {b : UInt8} (h : 0x80 ≤ b) :
    b ≠ byte '\n' ∧ b ≠ byte '\\' ∧ b ≠ byte '\'' := by
  refine ⟨?_, ?_, ?_⟩ <;> rintro rfl <;> exact absurd h (by decide)

theorem getElem?_headSize_of_none {b c : UInt8} {z : Bytes}
    (h : Utf8.decode? (b :: c :: z) = none) :
    (b :: c :: z)[Utf8.headSize (b :: c :: z)]? = some c := by
  simp [Utf8.headSize, h]

/-- The bytes of a character keep it a character, if a tick right behind them stays there. -/
theorem isCharacter_append {body rest z : Bytes} (h : isCharacter (body ++ rest) = true)
    (hne : body ≠ []) (hchar : Extent.character? (body ++ rest) = some body.length)
    (htick : rest.head? = some (byte '\'') → z.head? = some (byte '\'')) :
    isCharacter (body ++ z) = true := by
  obtain ⟨b, body, rfl⟩ := List.exists_cons_of_ne_nil hne
  by_cases hb : b = byte '\\'
  · simp [isCharacter, hb]
  have hquote : (b :: body ++ rest)[Utf8.headSize (b :: body ++ rest)]? = some (byte '\'') := by
    simpa [isCharacter, hb] using h
  cases hd : Utf8.decode? (b :: body ++ rest) with
  | none =>
    have hge : 0x80 ≤ b := by
      by_contra hlt
      rw [List.cons_append, Utf8.decode?_ascii (by simpa using hlt)] at hd
      simp at hd
    obtain ⟨c, r, hr⟩ : ∃ c r, body ++ rest = c :: r := by
      cases hr : body ++ rest with
      | nil =>
        rw [List.cons_append, hr] at hquote hd
        simp [Utf8.headSize, hd] at hquote
      | cons c r => exact ⟨c, r, rfl⟩
    rw [List.cons_append, hr] at hquote hd
    rw [getElem?_headSize_of_none hd, Option.some.injEq] at hquote
    subst hquote
    have heq : b :: body ++ rest = [b] ++ byte '\'' :: r := by simp [hr]
    rw [eq_plain heq hchar (by simpa using ne_of_above hge)]
    have htail : Utf8.isTail (byte '\'') = false := by decide
    have hnone := Utf8.decode?_eq_none_of_not_tail hge htail z
    have := getElem?_headSize_of_none hnone
    simp only [isCharacter, List.cons_append, List.nil_append, this]
    simp
  | some found =>
    obtain ⟨code, size⟩ := found
    obtain ⟨char, r, hr, hcne, rfl, hz, hbytes⟩ := Utf8.decode?_inv hd
    rw [hr, headSize_char r (hz r), List.getElem?_append_right (Nat.le_refl _), Nat.sub_self,
      ← List.head?_eq_getElem?] at hquote
    obtain ⟨r, rfl⟩ := List.head?_eq_some_iff.1 hquote
    by_cases hplain : ∀ c ∈ char, c ≠ byte '\n' ∧ c ≠ byte '\\' ∧ c ≠ byte '\''
    · rw [eq_plain hr hchar hplain, List.append_assoc]
      exact isCharacter_char _ (hz _) rfl
    -- the only character with a special byte that can start here is the quote itself
    rcases hbytes with ⟨c, -, rfl, rfl⟩ | hge
    · obtain ⟨rfl, hbody⟩ : b = c ∧ body ++ rest = byte '\'' :: r := by simpa using hr
      have hq : b = byte '\'' := by
        by_contra hq
        have hn : b ≠ byte '\n' := by
          rintro rfl
          rw [List.cons_append, hbody] at hchar
          simp [Extent.character?] at hchar
        exact hplain (by simpa using ⟨hn, hb, hq⟩)
      subst hq
      rw [List.cons_append, hbody] at hchar
      have hone : Extent.character? (byte '\'' :: byte '\'' :: r) = some 1 :=
        @character?_plain [] (by simp) _
      rw [hone, Option.some.injEq] at hchar
      obtain rfl : body = [] := List.eq_nil_of_length_eq_zero (by simpa using hchar.symm)
      exact isCharacter_char z (hz z) (htick (by rw [List.nil_append] at hbody; rw [hbody]; rfl))
    · exact absurd (fun c hc => ne_of_above (hge c hc)) hplain

theorem tick_inv {rest : Bytes} {piece : Piece} {n : Nat} (h : tick rest = .ok (piece, n)) :
    ∃ x y, rest = x ++ y ∧ x.length = n ∧ (x = [] ∨ y.head?.any isWordByte = false) ∧
      ∀ y', Alike y y' → tick (x ++ y') = .ok (piece, n) := by
  by_cases hc : isCharacter rest = true
  · have heq : tick rest = literalOf .unterminatedChar (Extent.character? rest) rest := if_pos hc
    rw [heq] at h
    obtain ⟨m, hm⟩ := exists_of_literalOf h
    obtain ⟨body, behind, rfl, hne, rfl, hz⟩ := Extent.character?_inv hm
    rw [hm] at h
    obtain ⟨suf, y, rfl, rfl, rfl, hy, hok⟩ := literalOf_inv h
    refine ⟨body ++ suf, y, by simp, by simp, .inr hy, fun y' ha => ?_⟩
    have hc' : isCharacter (body ++ (suf ++ y')) = true := by
      refine isCharacter_append hc hne hm ?_
      cases suf with
      | nil => exact (ha.mark _ (by decide)).2
      | cons c suf => simp
    have heq' : tick (body ++ (suf ++ y')) = literalOf .unterminatedChar
        (Extent.character? (body ++ (suf ++ y'))) (body ++ (suf ++ y')) := if_pos hc'
    rw [List.append_assoc, heq', hz]
    exact hok y' (ha.word hy)
  · have hlife : tick rest = .ok (.punct true, 0) := by
      have heq : tick rest = if startsIdent rest then .ok (.punct true, 0)
        else .error (.unexpected '\''.toNat) := if_neg hc
      rw [heq] at h ⊢
      split at h
      · rename_i hs
        rw [if_pos hs]
      · simp at h
    rw [hlife] at h
    obtain ⟨rfl, rfl⟩ := Prod.mk.inj (Except.ok.inj h)
    exact ⟨[], rest, rfl, rfl, .inl rfl, fun y' ha => ha.tick hlife⟩

/-! ### Words -/

/-- Nothing makes a raw name or a literal of the word that starts with `b`. -/
structure Plain (b : UInt8) (rest : Bytes) : Prop where
  raw : b = byte 'r' → rest.head? ≠ some (byte '"') ∧ isRawHash rest = false
  string : b = byte 'b' ∨ b = byte 'c' → rest.head? ≠ some (byte '"')
  char : b = byte 'b' → rest.head? ≠ some (byte '\'')
  rawString : b = byte 'b' ∨ b = byte 'c' → rest.head? = some (byte 'r') →
    isQuoteOrHash rest[1]? = false

theorem word_rawName {rest : Bytes} (h : isQuoteOrHash rest.head? = false)
    (hs : startsIdent rest = true) :
    word (byte 'r') (byte '#' :: rest) = .ok (.ident, 1 + Extent.identifier rest) := by
  have hq : isQuoteOrHash rest[0]? = false := by rwa [← List.head?_eq_getElem?]
  simp only [isQuoteOrHash] at hq
  simp [word, hs, hq]

theorem word_rawString {rest : Bytes} (h : rest.head? = some (byte '"') ∨
    (rest.head? = some (byte '#') ∧ isQuoteOrHash rest[1]? = true)) :
    word (byte 'r') rest = rawOf 0 rest := by
  have hne : byte '"' ≠ byte '#' := by decide
  rcases h with h | ⟨h, hq⟩
  · simp [word, h, hne]
  · simp only [isQuoteOrHash] at hq
    simp [word, h, hq]

theorem word_string {b : UInt8} (hb : b = byte 'b' ∨ b = byte 'c') (rest : Bytes) :
    word b (byte '"' :: rest) =
      literalOf .unterminatedString ((Extent.string? rest).map (· + 1)) (byte '"' :: rest) := by
  have hr : b ≠ byte 'r' := by rcases hb with rfl | rfl <;> decide
  have hb' : (b == byte 'b' || b == byte 'c') = true := by simpa using hb
  simp [word, hr, hb']

theorem word_char (rest : Bytes) :
    word (byte 'b') (byte '\'' :: rest) =
      literalOf .unterminatedChar ((Extent.character? rest).map (· + 1)) (byte '\'' :: rest) := by
  have hr : byte 'b' ≠ byte 'r' := by decide
  have hq : byte '\'' ≠ byte '"' := by decide
  simp [word, hr, hq]

theorem word_rawBytes {b : UInt8} {rest : Bytes} (hb : b = byte 'b' ∨ b = byte 'c')
    (h : rest.head? = some (byte 'r')) (hq : isQuoteOrHash rest[1]? = true) :
    word b rest = rawOf 1 rest := by
  have hr : b ≠ byte 'r' := by rcases hb with rfl | rfl <;> decide
  have hb' : (b == byte 'b' || b == byte 'c') = true := by simpa using hb
  have h1 : byte 'r' ≠ byte '"' := by decide
  have h2 : byte 'r' ≠ byte '\'' := by decide
  simp only [isQuoteOrHash] at hq
  simp [word, hr, h, hb', hq, h1, h2]

theorem word_plain {b : UInt8} {rest : Bytes} (h : Plain b rest) :
    word b rest = if startsIdent (b :: rest) then .ok (.ident, Extent.identifier (b :: rest) - 1)
      else .error (.unexpected (Utf8.headCode (b :: rest))) := by
  unfold word
  have h1 : (b == byte 'r' && rest.head? == some (byte '#') && !isQuoteOrHash rest[1]?
      && startsIdent (rest.drop 1)) = false := by
    by_contra hc
    simp only [Bool.not_eq_false, Bool.and_eq_true, beq_iff_eq] at hc
    have hraw := (h.raw hc.1.1.1).2
    rw [isRawHash, hc.1.1.2, hc.2] at hraw
    simp at hraw
  have h2 : (b == byte 'r' && (rest.head? == some (byte '"')
      || (rest.head? == some (byte '#') && isQuoteOrHash rest[1]?))) = false := by
    by_contra hc
    simp only [Bool.not_eq_false, Bool.and_eq_true, Bool.or_eq_true, beq_iff_eq] at hc
    obtain ⟨hq, hraw⟩ := h.raw hc.1
    rcases hc.2 with hc2 | hc2
    · exact hq hc2
    · simp [isRawHash, hc2.1, hc2.2] at hraw
  have h3 : ((b == byte 'b' || b == byte 'c') && rest.head? == some (byte '"')) = false := by
    by_contra hc
    simp only [Bool.not_eq_false, Bool.and_eq_true, Bool.or_eq_true, beq_iff_eq] at hc
    exact h.string hc.1 hc.2
  have h4 : (b == byte 'b' && rest.head? == some (byte '\'')) = false := by
    by_contra hc
    simp only [Bool.not_eq_false, Bool.and_eq_true, beq_iff_eq] at hc
    exact h.char hc.1 hc.2
  have h5 : ((b == byte 'b' || b == byte 'c') && rest.head? == some (byte 'r')
      && isQuoteOrHash rest[1]?) = false := by
    by_contra hc
    simp only [Bool.not_eq_false, Bool.and_eq_true, Bool.or_eq_true, beq_iff_eq] at hc
    rw [h.rawString hc.1.1 hc.1.2] at hc
    exact absurd hc.2 (by simp)
  simp only [isQuoteOrHash] at h1 h2 h5
  simp only [h1, h2, h3, h4, h5, Bool.false_eq_true, if_false]

theorem word_cases (b : UInt8) (rest : Bytes) :
    (b = byte 'r' ∧ ∃ r, rest = byte '#' :: r ∧ isQuoteOrHash r.head? = false ∧
        startsIdent r = true) ∨
      (b = byte 'r' ∧ (rest.head? = some (byte '"') ∨
        (rest.head? = some (byte '#') ∧ isQuoteOrHash rest[1]? = true))) ∨
      ((b = byte 'b' ∨ b = byte 'c') ∧ ∃ r, rest = byte '"' :: r) ∨
      (b = byte 'b' ∧ ∃ r, rest = byte '\'' :: r) ∨
      ((b = byte 'b' ∨ b = byte 'c') ∧ rest.head? = some (byte 'r') ∧
        isQuoteOrHash rest[1]? = true) ∨
      Plain b rest := by
  by_cases hr : b = byte 'r'
  · by_cases hq : rest.head? = some (byte '"')
    · exact .inr (.inl ⟨hr, .inl hq⟩)
    by_cases hraw : isRawHash rest = true
    · simp only [isRawHash, Bool.and_eq_true, beq_iff_eq, Bool.or_eq_true] at hraw
      obtain ⟨hh, hraw⟩ := hraw
      by_cases hthird : isQuoteOrHash rest[1]? = true
      · exact .inr (.inl ⟨hr, .inr ⟨hh, hthird⟩⟩)
      obtain ⟨r, rfl⟩ := List.head?_eq_some_iff.1 hh
      refine .inl ⟨hr, r, rfl, ?_, hraw.resolve_left hthird⟩
      rw [List.head?_eq_getElem?]
      simpa using hthird
    · refine .inr (.inr (.inr (.inr (.inr ⟨fun _ => ⟨hq, by simpa using hraw⟩, ?_, ?_, ?_⟩))))
      all_goals
        intro hb
        exact absurd hb (by rw [hr]; decide)
  have hraw : ∀ P, b = byte 'r' → P := fun _ h => absurd h hr
  by_cases hb : b = byte 'b' ∨ b = byte 'c'
  · by_cases hq : rest.head? = some (byte '"')
    · obtain ⟨r, rfl⟩ := List.head?_eq_some_iff.1 hq
      exact .inr (.inr (.inl ⟨hb, r, rfl⟩))
    by_cases ht : b = byte 'b' ∧ rest.head? = some (byte '\'')
    · obtain ⟨r, rfl⟩ := List.head?_eq_some_iff.1 ht.2
      exact .inr (.inr (.inr (.inl ⟨ht.1, r, rfl⟩)))
    by_cases hs : rest.head? = some (byte 'r') ∧ isQuoteOrHash rest[1]? = true
    · exact .inr (.inr (.inr (.inr (.inl ⟨hb, hs⟩))))
    · refine .inr (.inr (.inr (.inr (.inr ⟨hraw _, fun _ => hq, fun h1 h2 => ht ⟨h1, h2⟩, ?_⟩))))
      intro _ h1
      by_contra h2
      exact hs ⟨h1, by simpa using h2⟩
  · refine .inr (.inr (.inr (.inr (.inr ⟨hraw _, fun h => absurd h hb, ?_, fun h => absurd h hb⟩))))
    intro h
    exact absurd (.inl h) hb

theorem identifier_ne_zero {b : UInt8} (h : isWordByte b = true) (rest : Bytes) :
    Extent.identifier (b :: rest) ≠ 0 := by
  have := (IsChar.of_isWordByte h).identifier_append rest
  rw [List.singleton_append, List.length_singleton] at this
  omega

theorem head?_ne_of_identifier {b : UInt8} {text : Bytes} (hb : isWordByte b = true)
    (h : Extent.identifier text = 0) : text.head? ≠ some b := by
  intro hhead
  obtain ⟨rest, rfl⟩ := List.head?_eq_some_iff.1 hhead
  exact identifier_ne_zero hb rest h

theorem head?_any_of_identifier {text : Bytes} (h : Extent.identifier text = 0) :
    text.head?.any isWordByte = false := by
  rw [any_head?_eq_false]
  intro b hb
  by_contra hw
  exact head?_ne_of_identifier (by simpa using hw) h hb

theorem not_mem_hazards {b : UInt8} (h : isWordByte b = true ∨ 0x80 ≤ b) : b ∉ hazards := by
  have hhazards : ∀ c ∈ hazards, isWordByte c = false ∧ ¬ 0x80 ≤ c := by decide +kernel
  intro hb
  obtain ⟨h1, h2⟩ := hhazards b hb
  rcases h with h | h
  · rw [h1] at h
    exact absurd h (by simp)
  · exact h2 h

theorem isQuoteOrHash_of_not_mem {b : UInt8} (h : b ∉ hazards) : isQuoteOrHash (some b) = false := by
  by_contra hc
  simp only [isQuoteOrHash, Bool.not_eq_false, Bool.or_eq_true, beq_iff_eq, Option.some.injEq] at hc
  rcases hc with rfl | rfl <;> exact h (by decide)

theorem Alike.isQuoteOrHash_eq {y y' : Bytes} (h : Alike y y') :
    isQuoteOrHash y'.head? = isQuoteOrHash y.head? := by
  have h1 := h.mark (byte '"') (by decide)
  have h2 := h.mark (byte '#') (by decide)
  rw [Bool.eq_iff_iff]
  simp only [isQuoteOrHash, Bool.or_eq_true, beq_iff_eq]
  rw [h1, h2]

theorem head?_ne_of_not_mem {b : UInt8} {text : Bytes} (hb : b ∈ hazards)
    (h : ∀ c, text.head? = some c → c ∉ hazards) : text.head? ≠ some b :=
  fun hhead => h b hhead hb

theorem Plain.of_alike {b : UInt8} {x y y' : Bytes} (h : Plain b (x ++ y))
    (hx : ∀ c ∈ x, isWordByte c = true ∨ 0x80 ≤ c) (ha : Alike y y')
    (hy : Extent.identifier y = 0) : Plain b (x ++ y') := by
  cases x with
  | nil =>
    have hq := ha.mark (byte '"') (by decide)
    have ht := ha.mark (byte '\'') (by decide)
    have hid := ha.ident hy
    refine ⟨fun hb => ?_, fun hb => ?_, fun hb => ?_, fun _ hr => ?_⟩
    · exact ⟨fun hc => (h.raw hb).1 (hq.1 hc), ha.rawHash (h.raw hb).2⟩
    · exact fun hc => h.string hb (hq.1 hc)
    · exact fun hc => h.char hb (ht.1 hc)
    · exact absurd hr (head?_ne_of_identifier (by decide) hid)
  | cons c x =>
    have hc := not_mem_hazards (hx c (by simp))
    refine ⟨fun hb => ⟨(h.raw hb).1, ?_⟩, h.string, h.char, fun hb hr => ?_⟩
    · have : c ≠ byte '#' := by
        rintro rfl
        exact hc (by decide)
      simp [isRawHash, this]
    · have hq := h.rawString hb hr
      cases x with
      | nil =>
        simp only [List.cons_append, List.nil_append, List.getElem?_cons_succ,
          ← List.head?_eq_getElem?] at hq ⊢
        rw [ha.isQuoteOrHash_eq, hq]
      | cons d x => exact hq

/-- A run of identifier characters is plain where no quote and no hash follows it. -/
theorem Plain.of_run {b : UInt8} {x y : Bytes} (hx : ∀ c ∈ x, isWordByte c = true ∨ 0x80 ≤ c)
    (hid : Extent.identifier y = 0) (hy : ∀ c, y.head? = some c → c ∉ hazards) :
    Plain b (x ++ y) := by
  have hhead : ∀ c, (x ++ y).head? = some c → c ∉ hazards := by
    intro c hc
    cases x with
    | nil => exact hy c hc
    | cons d x =>
      obtain rfl : d = c := by simpa using hc
      exact not_mem_hazards (hx d (by simp))
  refine ⟨fun _ => ⟨head?_ne_of_not_mem (by decide) hhead, ?_⟩,
    fun _ => head?_ne_of_not_mem (by decide) hhead, fun _ => head?_ne_of_not_mem (by decide) hhead,
    fun _ hr => ?_⟩
  · have hne := head?_ne_of_not_mem (show byte '#' ∈ hazards by decide) hhead
    rw [isRawHash, beq_eq_false_iff_ne.2 hne, Bool.false_and]
  · cases x with
    | nil => exact absurd hr (head?_ne_of_identifier (by decide) hid)
    | cons c x =>
      simp only [List.cons_append, List.getElem?_cons_succ, ← List.head?_eq_getElem?]
      cases x with
      | nil =>
        cases hy' : y.head? with
        | none => simp [hy', isQuoteOrHash]
        | some d =>
          rw [List.nil_append, hy']
          exact isQuoteOrHash_of_not_mem (hy d hy')
      | cons d x =>
        rw [List.cons_append, List.head?_cons]
        exact isQuoteOrHash_of_not_mem (not_mem_hazards (hx d (by simp)))

/-- A name is read as an identifier where nothing behind it continues it or makes it a literal. -/
theorem word_name {b : UInt8} {x y : Bytes} (h : IsName (b :: x)) (hp : Plain b (x ++ y))
    (hid : Extent.identifier y = 0) : word b (x ++ y) = .ok (.ident, x.length) := by
  have hs : startsIdent (b :: (x ++ y)) = true := startsIdent_append h.start y
  have hlen : Extent.identifier (b :: (x ++ y)) = x.length + 1 := by
    have := h.run.identifier_append y
    rwa [List.cons_append, hid, List.length_cons, Nat.add_zero] at this
  rw [word_plain hp, if_pos hs, hlen]
  rfl

theorem exists_two {x : Bytes} (h : 1 < x.length) : ∃ c d x', x = c :: d :: x' := by
  rcases x with _ | ⟨c, _ | ⟨d, x⟩⟩
  · simp at h
  · simp at h
  · exact ⟨c, d, x, rfl⟩

theorem word_inv {b : UInt8} {rest : Bytes} {piece : Piece} {n : Nat}
    (h : word b rest = .ok (piece, n)) :
    ∃ x y, rest = x ++ y ∧ x.length = n ∧ y.head?.any isWordByte = false ∧
      ∀ y', Alike y y' → word b (x ++ y') = .ok (piece, n) := by
  rcases word_cases b rest with ⟨rfl, r, rfl, hq, hs⟩ | ⟨rfl, hq⟩ | ⟨hb, r, rfl⟩ | ⟨rfl, r, rfl⟩ |
    ⟨hb, hr, hq⟩ | hp
  · -- a raw name
    obtain ⟨name, y, rfl, hname, hy⟩ := IsName.exists_of_startsIdent hs
    rw [word_rawName hq hs, hname.run.identifier_append, hy] at h
    obtain ⟨rfl, rfl⟩ := Prod.mk.inj (Except.ok.inj h)
    refine ⟨byte '#' :: name, y, rfl, by simp; omega, head?_any_of_identifier hy, fun y' ha => ?_⟩
    obtain ⟨c, name, rfl⟩ := List.exists_cons_of_ne_nil hname.ne_nil
    have hq' : isQuoteOrHash (c :: name ++ y').head? = false := hq
    rw [List.cons_append, word_rawName hq' (startsIdent_append hname.start y'),
      hname.run.identifier_append, ha.ident hy]
  · -- a raw string
    rw [word_rawString hq] at h
    obtain ⟨x, y, rfl, rfl, hlen, rfl, hy, hok⟩ := rawOf_inv h
    refine ⟨x, y, rfl, rfl, hy, fun y' ha => ?_⟩
    obtain ⟨c, d, x, rfl⟩ := exists_two hlen
    rw [word_rawString (by simpa using hq)]
    exact hok y' (ha.word hy)
  · -- a string
    rw [word_string hb] at h
    obtain ⟨_, hlen⟩ := exists_of_literalOf h
    obtain ⟨m, hm, rfl⟩ := Option.map_eq_some_iff.1 hlen
    obtain ⟨body, behind, rfl, -, rfl, hz⟩ := Extent.string?_inv hm
    rw [hm] at h
    obtain ⟨suf, y, rfl, rfl, rfl, hy, hok⟩ := @literalOf_inv _ (byte '"' :: body) _ _ _ h
    refine ⟨byte '"' :: body ++ suf, y, by simp, List.length_append, hy, fun y' ha => ?_⟩
    have := hok y' (ha.word hy)
    rw [List.append_assoc, List.cons_append, word_string hb, hz]
    exact this
  · -- a byte character
    rw [word_char] at h
    obtain ⟨_, hlen⟩ := exists_of_literalOf h
    obtain ⟨m, hm, rfl⟩ := Option.map_eq_some_iff.1 hlen
    obtain ⟨body, behind, rfl, -, rfl, hz⟩ := Extent.character?_inv hm
    rw [hm] at h
    obtain ⟨suf, y, rfl, rfl, rfl, hy, hok⟩ := @literalOf_inv _ (byte '\'' :: body) _ _ _ h
    refine ⟨byte '\'' :: body ++ suf, y, by simp, List.length_append, hy, fun y' ha => ?_⟩
    have := hok y' (ha.word hy)
    rw [List.append_assoc, List.cons_append, word_char, hz]
    exact this
  · -- a raw string of bytes
    rw [word_rawBytes hb hr hq] at h
    obtain ⟨x, y, rfl, rfl, hlen, rfl, hy, hok⟩ := rawOf_inv h
    refine ⟨x, y, rfl, rfl, hy, fun y' ha => ?_⟩
    obtain ⟨c, d, x, rfl⟩ := exists_two (Nat.lt_of_succ_lt hlen)
    rw [word_rawBytes hb (by simpa using hr) (by simpa using hq)]
    exact hok y' (ha.word hy)
  · -- a plain name
    rw [word_plain hp] at h
    split at h
    · rename_i hs
      obtain ⟨name, y, heq, hname, hy⟩ := IsName.exists_of_startsIdent hs
      obtain ⟨c, x, rfl⟩ := List.exists_cons_of_ne_nil hname.ne_nil
      obtain ⟨rfl, rfl⟩ := List.cons.inj heq
      have hlen : n = x.length := by
        have := (Prod.mk.inj (Except.ok.inj h)).2
        rw [heq, hname.run.identifier_append, hy] at this
        simpa using this.symm
      obtain rfl := (Prod.mk.inj (Except.ok.inj h)).1
      refine ⟨x, y, rfl, hlen.symm, head?_any_of_identifier hy, fun y' ha => ?_⟩
      have hx : ∀ c ∈ x, isWordByte c = true ∨ 0x80 ≤ c :=
        fun c hc => hname.run.forall_mem c (by simp [hc])
      rw [hlen]
      exact word_name hname (hp.of_alike hx ha hy) (ha.ident hy)
    · simp at h

end GetterRename.Piece
