import GetterRename.Proofs.Source.Nesting

/-!
# Numbers and the signs in them

A number is read byte by byte, and whether it goes on depends on what has been read: a letter or a
digit always belongs to it, one point in front of a digit does, and so does a sign behind an `e`,
unless the number is hexadecimal.  The `e` need not be that of an exponent: it may be the last
letter of a type suffix.

* `Extent.goesOn` — whether a number goes on with a byte;
* `Extent.number_eq_length_iff` — a number goes on byte by byte, and no further;
* `Token.sign_of_lex` — what stands in front of a sign in a number;
* `Reads.operator_behind_suffix_iff` — where a sign behind a type suffix is an operator.
-/

namespace GetterRename

/-! ### How far a number goes -/

def isSignByte (b : UInt8) : Bool := b == byte '+' || b == byte '-'

def isExponentByte (b : UInt8) : Bool := b == byte 'e' || b == byte 'E'

def isHexText : Bytes → Bool
  | a :: b :: _ => a == byte '0' && (b == byte 'x' || b == byte 'X')
  | _ => false

namespace Extent

/-- Whether a number goes on with a byte, where `before` has been read and `next` is the byte behind
it. -/
def goesOn (isHex : Bool) (before : Bytes) (b : UInt8) (next : Option UInt8) : Bool :=
  isWordByte b || (b == byte '.' && !before.contains (byte '.') && next.any isDigitByte) ||
    (isSignByte b && !isHex && before.getLast?.any isExponentByte)

/-- A byte that is no point leaves a point read or not. -/
theorem contains_point_append {before : Bytes} {b : UInt8} (h : b ≠ byte '.') :
    (before ++ [b]).contains (byte '.') = before.contains (byte '.') := by
  rw [Bool.eq_iff_iff, List.contains_iff_mem, List.contains_iff_mem, List.mem_append,
    List.mem_singleton]
  exact or_iff_left h.symm

theorem number_cons {isHex : Bool} {before : Bytes} {last b : UInt8} (rest : Bytes)
    (hlast : before.getLast? = some last) :
    number isHex (before.contains (byte '.')) last (b :: rest) =
      if goesOn isHex before b rest.head? then
        number isHex ((before ++ [b]).contains (byte '.')) b rest + 1
      else 0 := by
  have hsign : (isSignByte b && !isHex && before.getLast?.any isExponentByte) =
      ((b == byte '+' || b == byte '-') && !isHex && (last == byte 'e' || last == byte 'E')) := by
    rw [hlast]
    rfl
  rw [number, goesOn, hsign]
  by_cases hb : b = byte '.'
  · subst hb
    have hword : isWordByte (byte '.') = false := by decide
    have hnosign : (byte '.' == byte '+' || byte '.' == byte '-') = false := by decide
    have hpoint : (before ++ [byte '.']).contains (byte '.') = true :=
      List.contains_iff_mem.2 (List.mem_append_right _ List.mem_cons_self)
    simp only [hword, hnosign, hpoint, Bool.false_or, Bool.false_and, Bool.or_false,
      Bool.false_eq_true, if_false]
  · have hpoint : (b == byte '.') = false := beq_eq_false_iff_ne.2 hb
    rw [contains_point_append hb]
    simp only [hpoint, Bool.false_and, Bool.or_false, Bool.false_eq_true, if_false]
    by_cases hword : isWordByte b = true
    · simp only [hword, Bool.true_or, if_true]
    · simp only [hword, Bool.false_or, if_false, Bool.false_eq_true]

/-- **How far a number goes.**  It goes on with each of its bytes but not with the one behind it. -/
theorem number_eq_length_iff {isHex : Bool} {before x y : Bytes} {last : UInt8}
    (hlast : before.getLast? = some last) :
    number isHex (before.contains (byte '.')) last (x ++ y) = x.length ↔
      (∀ a b c, x = a ++ b :: c → goesOn isHex (before ++ a) b (c ++ y).head? = true) ∧
        ∀ b z, y = b :: z → goesOn isHex (before ++ x) b z.head? = false := by
  induction x generalizing before last with
  | nil =>
    rw [List.nil_append, List.append_nil, List.length_nil]
    constructor
    · intro h
      refine ⟨fun a b c hx => (nomatch (List.append_eq_nil_iff.1 hx.symm).2), ?_⟩
      rintro b z rfl
      rw [number_cons z hlast] at h
      by_contra hgo
      rw [if_pos (by simpa using hgo)] at h
      exact absurd h (Nat.succ_ne_zero _)
    · rintro ⟨-, hstop⟩
      cases y with
      | nil => rfl
      | cons b z =>
        rw [number_cons z hlast, hstop b z rfl]
        rfl
  | cons b x ih =>
    have hnext : (before ++ [b]).getLast? = some b := List.getLast?_concat
    have hbefore : ∀ a, before ++ b :: a = before ++ [b] ++ a := fun a => by simp
    rw [List.cons_append, number_cons _ hlast, List.length_cons, hbefore x]
    constructor
    · intro h
      split at h
      · rename_i hgo
        obtain ⟨hinside, hstop⟩ := (ih hnext).1 (Nat.succ.inj h)
        refine ⟨fun a d c hx => ?_, hstop⟩
        cases a with
        | nil =>
          obtain ⟨rfl, rfl⟩ := List.cons.inj hx
          rwa [List.append_nil]
        | cons a' a =>
          obtain ⟨rfl, hx'⟩ := List.cons.inj hx
          rw [hbefore a]
          exact hinside a d c hx'
      · exact absurd h.symm (Nat.succ_ne_zero _)
    · rintro ⟨hinside, hstop⟩
      have hgo := hinside [] b x rfl
      rw [List.append_nil] at hgo
      rw [if_pos hgo, (ih hnext).2 ⟨fun a d c hx => ?_, hstop⟩]
      rw [← hbefore a]
      exact hinside (b :: a) d c (congrArg (b :: ·) hx)

end Extent

namespace Piece

theorem isHexText_cons (b : UInt8) (rest : Bytes) :
    isHexText (b :: rest) =
      (b == byte '0' && (rest.head? == some (byte 'x') || rest.head? == some (byte 'X'))) := by
  cases rest with
  | nil => simp [isHexText]
  | cons c rest => simp [isHexText]

/-- **How a number is read.**  It is cut off where it does not go on. -/
theorem at?_number_iff {b : UInt8} {x y : Bytes} (hb : isDigitByte b = true) :
    at? b (x ++ y) = .ok (.literal, x.length) ↔
      (∀ a c z, x = a ++ c :: z →
        Extent.goesOn (isHexText (b :: (x ++ y))) (b :: a) c (z ++ y).head? = true) ∧
        ∀ c z, y = c :: z →
          Extent.goesOn (isHexText (b :: (x ++ y))) (b :: x) c z.head? = false := by
  have hlead : lead b = .digit := by
    rw [lead_of_isRunByte (by simp [isRunByte, Extent.isWordByte_of_isDigitByte hb]), if_pos hb]
  have hpoint : [b].contains (byte '.') = false := by
    refine Bool.eq_false_iff.2 fun hmem => ?_
    obtain rfl := List.mem_singleton.1 (List.contains_iff_mem.1 hmem)
    exact absurd hb (by decide)
  have hlast : [b].getLast? = some b := rfl
  have hnumber := @Extent.number_eq_length_iff (isHexText (b :: (x ++ y))) [b] x y b hlast
  rw [hpoint] at hnumber
  rw [at?_eq, hlead]
  simp only [← isHexText_cons, Except.ok.injEq, Prod.mk.injEq, true_and]
  exact hnumber

theorem at?_sign {s : UInt8} (hs : isSignByte s = true) (rest : Bytes) :
    at? s rest = .ok (.punct (rest.head?.any punctuation.contains), 0) := by
  simp only [isSignByte, Bool.or_eq_true, beq_iff_eq] at hs
  rw [at?_eq]
  rcases hs with rfl | rfl
  · rw [show lead (byte '+') = .punct by decide]
  · rw [show lead (byte '-') = .punct by decide]

end Piece

/-! ### The text of a number -/

/-- A sign belongs to a number only behind an `e`, and only if the number is not hexadecimal. -/
theorem Extent.goesOn_sign {isHex : Bool} {before : Bytes} {s : UInt8} {next : Option UInt8}
    (hs : isSignByte s = true) :
    goesOn isHex before s next = (!isHex && before.getLast?.any isExponentByte) := by
  have hword : isWordByte s = false ∧ (s == byte '.') = false := by
    simp only [isSignByte, Bool.or_eq_true, beq_iff_eq] at hs
    rcases hs with rfl | rfl <;> decide
  simp [goesOn, hword, hs]

/-- The text starts with a digit and goes on as numbers do. -/
structure IsNumber (text : Bytes) : Prop where
  digit : text.head?.any isDigitByte = true
  goesOn : ∀ before b behind, text = before ++ b :: behind → before ≠ [] →
    ∃ next, Extent.goesOn (isHexText text) before b next = true

/-- Digits and underscores behind a digit, with one point among them or none. -/
structure IsMantissa (text : Bytes) : Prop where
  digit : text.head?.any isDigitByte = true
  bytes : ∀ b ∈ text, isDigitByte b = true ∨ b = byte '_' ∨ b = byte '.'
  point : text.count (byte '.') ≤ 1

namespace IsNumber

variable {text : Bytes} (h : IsNumber text)

include h

theorem sign {before behind : Bytes} {s : UInt8} (htext : text = before ++ s :: behind)
    (hs : isSignByte s = true) :
    isHexText text = false ∧ before.getLast?.any isExponentByte = true := by
  have hne : before ≠ [] := by
    rintro rfl
    have hdigit : isDigitByte s = true := by simpa [htext] using h.digit
    simp only [isSignByte, Bool.or_eq_true, beq_iff_eq] at hs
    rcases hs with rfl | rfl <;> exact absurd hdigit (by decide)
  obtain ⟨next, hgo⟩ := h.goesOn before s behind htext hne
  rw [Extent.goesOn_sign hs] at hgo
  simpa using hgo

theorem byte_cases {b : UInt8} (hb : b ∈ text) :
    isWordByte b = true ∨ b = byte '.' ∨ isSignByte b = true := by
  obtain ⟨before, behind, htext⟩ := List.append_of_mem hb
  by_cases hne : before = []
  · subst hne
    have hdigit : isDigitByte b = true := by simpa [htext] using h.digit
    exact .inl (Extent.isWordByte_of_isDigitByte hdigit)
  · obtain ⟨next, hgo⟩ := h.goesOn before b behind htext hne
    simp only [Extent.goesOn, Bool.or_eq_true, Bool.and_eq_true, beq_iff_eq] at hgo
    rcases hgo with (hword | hpoint) | hsign
    · exact .inl hword
    · exact .inr (.inl hpoint.1.1)
    · exact .inr (.inr hsign.1.1)

theorem point {before behind : Bytes} (htext : text = before ++ byte '.' :: behind) :
    byte '.' ∉ before := by
  by_cases hne : before = []
  · rw [hne]
    exact List.not_mem_nil
  · obtain ⟨next, hgo⟩ := h.goesOn before _ behind htext hne
    have hword : isWordByte (byte '.') = false := by decide
    have hsign : isSignByte (byte '.') = false := by decide
    simp only [Extent.goesOn, hword, hsign, Bool.false_or, Bool.false_and, Bool.or_false,
      Bool.and_eq_true, Bool.not_eq_true'] at hgo
    simpa using hgo.1.2

/-- The head of a number is a mantissa if neither a letter nor a sign stands in it. -/
theorem isMantissa_iff {front rest : Bytes} (htext : text = front ++ rest) (hne : front ≠ []) :
    IsMantissa front ↔ ∀ b ∈ front, isLetterByte b = false ∧ isSignByte b = false := by
  constructor
  · intro hfront b hb
    have hdigits : ∀ b, isDigitByte b = true → isLetterByte b = false ∧ isSignByte b = false :=
      forall_byte (by decide +kernel)
    rcases hfront.bytes b hb with hdigit | rfl | rfl
    · exact hdigits b hdigit
    · decide
    · decide
  · intro hfront
    refine ⟨?_, fun b hb => ?_, ?_⟩
    · obtain ⟨b, front, rfl⟩ := List.exists_cons_of_ne_nil hne
      simpa [htext] using h.digit
    · obtain ⟨hletter, hsign⟩ := hfront b hb
      rcases h.byte_cases (htext ▸ List.mem_append_left _ hb) with hword | hpoint | hsign'
      · simp only [isWordByte, hletter, Bool.or_false, Bool.or_eq_true, beq_iff_eq] at hword
        exact hword.symm.imp_right .inl
      · exact .inr (.inr hpoint)
      · rw [hsign] at hsign'
        exact absurd hsign' Bool.false_ne_true
    · by_cases hpoint : byte '.' ∈ front
      · -- a second point would stand behind the first
        obtain ⟨before, behind, rfl, hbefore⟩ := List.eq_append_cons_of_mem hpoint
        have hbehind : byte '.' ∉ behind := by
          intro hsecond
          obtain ⟨between, more, rfl⟩ := List.append_of_mem hsecond
          have htext' : text = (before ++ byte '.' :: between) ++ byte '.' :: (more ++ rest) := by
            simpa using htext
          exact h.point htext' (by simp)
        simp [List.count_append, List.count_eq_zero.2 hbefore, List.count_eq_zero.2 hbehind]
      · rw [List.count_eq_zero.2 hpoint]
        exact Nat.zero_le 1

end IsNumber

/-! ### Numbers in front of an operator -/

/-- The type suffixes of integers. -/
def integerSuffixes : List Bytes :=
  ["u8", "u16", "u32", "u64", "u128", "usize", "i8", "i16", "i32", "i64", "i128",
    "isize"].map Bytes.ofString

theorem isHexText_append {b : UInt8} {x y : Bytes} (h : x ≠ [] ∨ y.head?.any isSignByte = true) :
    isHexText (b :: (x ++ y)) = isHexText (b :: x) := by
  cases x with
  | cons c x => rfl
  | nil =>
    cases y with
    | nil => rfl
    | cons s y =>
      have hs : s = byte '+' ∨ s = byte '-' := by simpa [isSignByte] using h
      have hno : (s == byte 'x' || s == byte 'X') = false := by
        rcases hs with rfl | rfl <;> decide
      rw [List.nil_append, isHexText, hno, Bool.and_false, isHexText]
      exact nofun

namespace Piece

theorem at?_number_sign_iff {b s : UInt8} {x y : Bytes} (hb : isDigitByte b = true)
    (hx : ∀ c ∈ x, isWordByte c = true) (hs : isSignByte s = true) :
    at? b (x ++ s :: y) = .ok (.literal, x.length) ↔
      isHexText (b :: x) = true ∨ (b :: x).getLast?.any isExponentByte = false := by
  have hstop : ∀ next, Extent.goesOn (isHexText (b :: x)) (b :: x) s next = false ↔
      isHexText (b :: x) = true ∨ (b :: x).getLast?.any isExponentByte = false := by
    intro next
    rw [Extent.goesOn_sign hs, Bool.and_eq_false_iff, Bool.not_eq_false']
  rw [at?_number_iff hb, isHexText_append (.inr (by simpa using hs))]
  constructor
  · rintro ⟨-, hend⟩
    exact (hstop _).1 (hend s y rfl)
  · intro hend
    refine ⟨fun a c z hxs => ?_, fun c z hcons => ?_⟩
    · simp [Extent.goesOn, hx c (by simp [hxs])]
    · obtain ⟨rfl, rfl⟩ := List.cons.inj hcons
      exact (hstop _).2 hend

end Piece

theorem Event.literal_of_mem_ofPiece {p q : Pos} {text found : Bytes} {piece : Piece}
    (h : Event.token (.literal text q) ∈ ofPiece p found piece) :
    piece = .literal ∧ text = found := by
  cases piece with
  | literal =>
    obtain ⟨rfl, -⟩ : text = found ∧ q = p := by simpa [ofPiece] using h
    exact ⟨rfl, rfl⟩
  | lineComment =>
    simp only [ofPiece] at h
    split at h <;> simp at h
  | blockComment =>
    simp only [ofPiece] at h
    cases hdoc : Piece.blockDoc found <;> simp [hdoc, ofBlockDoc] at h
  | _ => simp [ofPiece] at h

namespace Reads

/-- A literal that starts with a digit is a number. -/
theorem isNumber {source text : Bytes} {es₁ es₂ : List Element}
    (h : Reads source (es₁ ++ ⟨.literal, text⟩ :: es₂))
    (hdigit : text.head?.any isDigitByte = true) : IsNumber text := by
  have hrest := h.append_right
  generalize Element.textL (⟨.literal, text⟩ :: es₂) = rest at hrest
  cases hrest with
  | @next b x y _ _ element _ =>
    have hb : isDigitByte b = true := by simpa using hdigit
    refine ⟨hdigit, fun before c behind htext hne => ?_⟩
    obtain ⟨a, before, rfl⟩ := List.exists_cons_of_ne_nil hne
    obtain ⟨rfl, hx⟩ := List.cons.inj htext
    have hgo := ((Piece.at?_number_iff hb).1 element).1 before c behind hx
    rw [isHexText_append (.inl (by simp [hx]))] at hgo
    exact ⟨_, hgo⟩

theorem exists_of_sign {s : UInt8} {y : Bytes} {es : List Element} (h : Reads (s :: y) es)
    (hs : isSignByte s = true) : ∃ joint es', es = ⟨.punct joint, [s]⟩ :: es' := by
  generalize htext : s :: y = text at h
  cases h with
  | done => exact nomatch htext
  | @next b x z piece es element _ =>
    obtain ⟨rfl, hy⟩ := List.cons.inj htext
    rw [Piece.at?_sign hs] at element
    obtain ⟨rfl, hlength⟩ := Prod.mk.inj (Except.ok.inj element)
    obtain rfl := List.eq_nil_of_length_eq_zero hlength.symm
    exact ⟨_, es, rfl⟩

/-- Where letters and digits that start with a digit stand in front of a sign, they are a number of
their own and the sign is an operator, unless the sign stands behind an `e` and the number is not
hexadecimal. -/
theorem operator_iff {source x y : Bytes} {b s : UInt8} {es₁ es₂ : List Element}
    (h : Reads source (es₁ ++ es₂)) (hb : isDigitByte b = true)
    (hx : ∀ c ∈ x, isWordByte c = true) (hs : isSignByte s = true)
    (htext : Element.textL es₂ = b :: (x ++ s :: y)) :
    (∃ joint es₃, es₂ = ⟨.literal, b :: x⟩ :: ⟨.punct joint, [s]⟩ :: es₃) ↔
      isHexText (b :: x) = true ∨ (b :: x).getLast?.any isExponentByte = false := by
  rw [← Piece.at?_number_sign_iff (y := y) hb hx hs]
  have hrest := h.append_right
  generalize hfound : Element.textL es₂ = rest at hrest
  rw [hfound] at htext
  constructor
  · rintro ⟨joint, es₃, rfl⟩
    cases hrest with
    | @next _ _ z _ _ element _ =>
      rwa [(List.cons.inj htext).2] at element
  · intro hliteral
    cases hrest with
    | done => exact nomatch htext
    | @next _ x' z piece es element rest =>
      obtain ⟨rfl, hx'⟩ := List.cons.inj htext
      rw [hx', hliteral] at element
      obtain ⟨rfl, hlength⟩ := Prod.mk.inj (Except.ok.inj element)
      obtain ⟨rfl, rfl⟩ := List.append_inj hx' hlength.symm
      obtain ⟨joint, es₃, rfl⟩ := rest.exists_of_sign hs
      exact ⟨joint, es₃, rfl⟩

/-- **Operators behind type suffixes.**  A sign behind an integer with a type suffix is an operator
exactly if the suffix is not one of the two that end with an `e`. -/
theorem operator_behind_suffix_iff {source digits suffix y : Bytes} {b s : UInt8}
    {es₁ es₂ : List Element} (h : Reads source (es₁ ++ es₂)) (hb : isDigitByte b = true)
    (hdigits : ∀ c ∈ digits, isDigitByte c = true ∨ c = byte '_')
    (hsuffix : suffix ∈ integerSuffixes) (hs : isSignByte s = true)
    (htext : Element.textL es₂ = b :: (digits ++ suffix ++ s :: y)) :
    (∃ joint es₃, es₂ = ⟨.literal, b :: (digits ++ suffix)⟩ :: ⟨.punct joint, [s]⟩ :: es₃) ↔
      suffix ≠ Bytes.ofString "usize" ∧ suffix ≠ Bytes.ofString "isize" := by
  have hwords : ∀ word ∈ integerSuffixes, (∀ c ∈ word, isWordByte c = true) ∧
      (word.head? ≠ some (byte 'x') ∧ word.head? ≠ some (byte 'X')) ∧
      (word.getLast?.any isExponentByte = false ↔
        word ≠ Bytes.ofString "usize" ∧ word ≠ Bytes.ofString "isize") ∧ word ≠ [] := by
    decide +kernel
  obtain ⟨hword, hfirst, hlast, hne⟩ := hwords suffix hsuffix
  have hx : ∀ c ∈ digits ++ suffix, isWordByte c = true := by
    intro c hc
    rcases List.mem_append.1 hc with hc | hc
    · rcases hdigits c hc with hdigit | rfl
      · exact Extent.isWordByte_of_isDigitByte hdigit
      · decide
    · exact hword c hc
  have hhex : isHexText (b :: (digits ++ suffix)) = false := by
    refine Bool.eq_false_iff.2 fun hhex => ?_
    simp only [Piece.isHexText_cons, Bool.and_eq_true, Bool.or_eq_true, beq_iff_eq] at hhex
    cases digits with
    | nil => exact hhex.2.elim hfirst.1 hfirst.2
    | cons c digits =>
      have hdigit := hdigits c List.mem_cons_self
      have hc : c = byte 'x' ∨ c = byte 'X' := by simpa using hhex.2
      rcases hc with rfl | rfl <;> exact absurd hdigit (by decide)
  have hend : (b :: (digits ++ suffix)).getLast? = suffix.getLast? := by
    rw [← List.cons_append, List.getLast?_append, List.getLast?_eq_some_getLast hne, Option.some_or]
  rw [operator_iff h hb hx hs htext, hhex, hend, hlast]
  exact or_iff_right Bool.false_ne_true

end Reads

/-- **Signs in numbers.**  In front of a sign that belongs to a number of a file there stands an `e`,
and the number is not hexadecimal.  What stands in front of the `e` is the mantissa of a decimal
number exactly if it has neither a letter nor a sign. -/
theorem Token.sign_of_lex {src text before behind : Bytes} {toks : List Token} {p : Pos} {s : UInt8}
    (h : lex src = .ok toks) (hmem : .leaf (.literal text p) ∈ marksL toks)
    (hdigit : text.head?.any isDigitByte = true) (htext : text = before ++ s :: behind)
    (hs : isSignByte s = true) :
    isHexText text = false ∧ ∃ front mark, before = front ++ [mark] ∧ isExponentByte mark = true ∧
      (IsMantissa front ↔ ∀ b ∈ front, isLetterByte b = false ∧ isSignByte b = false) := by
  obtain ⟨es, hreads, hnest⟩ := lex_eq_ok_iff.1 h
  rw [marksL_of_nest hnest, List.mem_map] at hmem
  obtain ⟨event, hevent, hmark⟩ := hmem
  obtain rfl : event = .token (.literal text p) := by
    cases event <;> simp_all [Event.mark]
  obtain ⟨es₁, ⟨piece, found⟩, es₂, rfl, hpiece⟩ := Element.exists_of_mem_events hevent
  obtain ⟨rfl, rfl⟩ := Event.literal_of_mem_ofPiece hpiece
  have hnumber := hreads.isNumber hdigit
  obtain ⟨hhex, hlast⟩ := hnumber.sign htext hs
  rcases List.eq_nil_or_concat before with rfl | ⟨front, mark, rfl⟩
  · exact absurd hlast Bool.false_ne_true
  rw [List.concat_eq_append] at htext hlast ⊢
  have hmark : isExponentByte mark = true := by simpa using hlast
  have hne : front ≠ [] := by
    rintro rfl
    have hfirst : isDigitByte mark = true := by simpa [htext] using hdigit
    simp only [isExponentByte, Bool.or_eq_true, beq_iff_eq] at hmark
    rcases hmark with rfl | rfl <;> exact absurd hfirst (by decide)
  have hsplit : text = front ++ mark :: s :: behind := by simpa using htext
  exact ⟨hhex, front, mark, rfl, hmark, hnumber.isMantissa_iff hsplit hne⟩

/-- The last letter of a type suffix is taken for the mark of an exponent. -/
example : Piece.at? (byte '1') "usize-get_x()" = .ok (.literal, 11) := by decide +kernel

end GetterRename
