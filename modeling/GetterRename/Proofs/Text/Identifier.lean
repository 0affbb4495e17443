import GetterRename.Source.Extent
import Mathlib.Data.List.TakeWhile

/-!
# Identifier characters and their bytes

A character is decoded from its own bytes: what follows them does not matter.  So a run of
identifier characters is read as a whole in front of any text, and it can be cut at an ASCII byte.

* `Utf8.decode?_inv` — the bytes of a decoded character, with any text behind them;
* `IsRun` — a text of identifier characters only, with `IsRun.induction` along its characters;
* `Extent.exists_run` — every text is a run and a text that starts with no identifier character;
* `IsName` — a run that starts as identifiers do.
-/

namespace GetterRename

namespace Utf8

theorem decode?_ascii {b : UInt8} (h : b < 0x80) (rest : Bytes) :
    decode? (b :: rest) = some (b.toNat, 1) := by
  have : b.toNat < 128 := by simpa [UInt8.lt_iff_toNat_lt] using h
  simp [decode?, this]

theorem isTail_ge {b : UInt8} (h : isTail b = true) : 0x80 ≤ b := by
  simp only [isTail, Bool.and_eq_true, decide_eq_true_eq] at h
  exact h.1

theorem ge_of_not_lt_toNat {b : UInt8} (h : ¬ b.toNat < 0x80) : 0x80 ≤ b := by
  simp only [UInt8.le_iff_toNat_le]
  simpa using h

/-- A character of several bytes has no ASCII byte, and what follows it does not matter. -/
theorem decode?_inv {text : Bytes} {code size : Nat} (h : decode? text = some (code, size)) :
    ∃ char rest, text = char ++ rest ∧ char ≠ [] ∧ char.length = size ∧
      (∀ z, decode? (char ++ z) = some (code, size)) ∧
      ((∃ b, b < 0x80 ∧ char = [b] ∧ code = b.toNat) ∨ ∀ b ∈ char, 0x80 ≤ b) := by
  cases text with
  | nil => simp [decode?] at h
  | cons a rest =>
    by_cases h1 : a.toNat < 0x80
    · have ha : a < 0x80 := by simpa [UInt8.lt_iff_toNat_lt] using h1
      rw [decode?_ascii ha] at h
      simp only [Option.some.injEq, Prod.mk.injEq] at h
      obtain ⟨rfl, rfl⟩ := h
      exact ⟨[a], rest, rfl, by simp, rfl, fun z => decode?_ascii ha z, .inl ⟨a, ha, rfl, rfl⟩⟩
    have hge := ge_of_not_lt_toNat h1
    unfold decode? at h
    simp only [h1, if_false] at h
    split at h
    · simp at h
    rename_i h2
    split at h
    · rename_i h3
      split at h
      · rename_i b r
        split at h
        · rename_i hb
          simp only [Option.some.injEq, Prod.mk.injEq] at h
          obtain ⟨rfl, rfl⟩ := h
          refine ⟨[a, b], r, rfl, by simp, rfl, fun z => ?_, .inr ?_⟩
          · simp [decode?, h1, h2, h3, hb]
          · simp [hge, isTail_ge hb]
        · simp at h
      · simp at h
    rename_i h3
    split at h
    · rename_i h4
      split at h
      · rename_i b c r
        split at h
        · rename_i hb
          simp only [Option.some.injEq, Prod.mk.injEq] at h
          obtain ⟨rfl, rfl⟩ := h
          refine ⟨[a, b, c], r, rfl, by simp, rfl, fun z => ?_, .inr ?_⟩
          · simp only [decode?, List.cons_append, List.nil_append, h1, h2, h3, h4, hb, if_true,
              if_false]
          · simp only [Bool.and_eq_true] at hb
            simp [hge, isTail_ge hb.1.1.1, isTail_ge hb.1.1.2]
        · simp at h
      · simp at h
    rename_i h4
    split at h
    · rename_i h5
      split at h
      · rename_i b c d r
        split at h
        · rename_i hb
          simp only [Option.some.injEq, Prod.mk.injEq] at h
          obtain ⟨rfl, rfl⟩ := h
          refine ⟨[a, b, c, d], r, rfl, by simp, rfl, fun z => ?_, .inr ?_⟩
          · simp only [decode?, List.cons_append, List.nil_append, h1, h2, h3, h4, h5, hb, if_true,
              if_false]
          · simp only [Bool.and_eq_true] at hb
            simp [hge, isTail_ge hb.1.1.1.1, isTail_ge hb.1.1.1.2, isTail_ge hb.1.1.2]
        · simp at h
      · simp at h
    · simp at h


/-- Nothing is decoded from a byte above ASCII that no tail follows. -/
theorem decode?_eq_none_of_not_tail {a c : UInt8} (ha : 0x80 ≤ a) (hc : isTail c = false)
    (z : Bytes) : decode? (a :: c :: z) = none := by
  have h1 : ¬ a.toNat < 0x80 := by
    simp only [UInt8.le_iff_toNat_le] at ha
    simpa using ha
  unfold decode?
  simp only [h1, if_false]
  split
  · rfl
  split
  · simp [hc]
  split
  · cases z <;> simp [hc]
  split
  · rcases z with _ | ⟨d, _ | ⟨e, z⟩⟩ <;> simp [hc]
  · rfl

end Utf8

/-! ## Bytes of identifiers -/

def isRunByte (b : UInt8) : Bool := isWordByte b || 0x80 ≤ b

theorem forall_byte {p : UInt8 → Prop} (h : ∀ n < 256, p n.toUInt8) (b : UInt8) : p b := by
  have := h b.toNat b.toNat_lt
  rwa [Nat.toUInt8_eq, UInt8.ofNat_toNat] at this

theorem isIdentContinue_ascii : ∀ n < 0x80, isIdentContinue n = isWordByte n.toUInt8 := by
  decide +kernel

theorem isIdentStart_ascii :
    ∀ n < 0x80, isIdentStart n = (isWordByte n.toUInt8 && !isDigitByte n.toUInt8) := by
  decide +kernel

theorem lt_of_isWordByte : ∀ {b : UInt8}, isWordByte b = true → b < 0x80 :=
  fun {b} => forall_byte (p := fun b => isWordByte b = true → b < 0x80) (by decide +kernel) b

theorem isIdentContinue_of_isIdentStart {code : Nat} (h : isIdentStart code = true) :
    isIdentContinue code = true := by
  simp only [isIdentStart, Bool.or_eq_true] at h
  simp only [isIdentContinue, Bool.or_eq_true]
  rcases h with h | h
  · exact .inl (.inl (.inl h))
  · exact .inl (.inl (.inr h))

theorem isIdentContinue_toNat {b : UInt8} (h : b < 0x80) :
    isIdentContinue b.toNat = isWordByte b := by
  have := isIdentContinue_ascii b.toNat (by simpa [UInt8.lt_iff_toNat_lt] using h)
  simpa using this

namespace Extent

theorem identifierFrom_append {skipped : Bytes} (rest : Bytes) :
    identifierFrom skipped.length (skipped ++ rest) = skipped.length + identifierFrom 0 rest := by
  induction skipped with
  | nil => simp
  | cons b skipped ih =>
    simp only [List.length_cons, List.cons_append, identifierFrom, ih]
    omega

theorem identifier_char {char : Bytes} {code : Nat} (rest : Bytes) (hne : char ≠ [])
    (h : Utf8.decode? (char ++ rest) = some (code, char.length)) :
    identifier (char ++ rest) =
      if isIdentContinue code then char.length + identifier rest else 0 := by
  obtain ⟨b, tail, rfl⟩ := List.exists_cons_of_ne_nil hne
  simp only [List.cons_append, List.length_cons] at h
  simp only [identifier, List.cons_append, identifierFrom, h]
  split
  · have := @identifierFrom_append tail rest
    simp only [Nat.add_sub_cancel, List.length_cons, this]
    omega
  · rfl

theorem identifier_of_decode?_none {text : Bytes} (h : Utf8.decode? text = none) :
    identifier text = 0 := by
  cases text with
  | nil => rfl
  | cons b rest => simp [identifier, identifierFrom, h]

end Extent

/-- A run of identifier characters. -/
def IsRun (text : Bytes) : Prop := Extent.identifier text = text.length

/-- The bytes `char` are one identifier character, whatever follows them. -/
structure IsChar (char : Bytes) (code : Nat) : Prop where
  ne_nil : char ≠ []
  decode? : ∀ z, Utf8.decode? (char ++ z) = some (code, char.length)
  continues : isIdentContinue code = true
  ascii_or : (∃ b, b < 0x80 ∧ char = [b] ∧ code = b.toNat) ∨ ∀ b ∈ char, 0x80 ≤ b

namespace IsChar

theorem of_isWordByte {b : UInt8} (h : isWordByte b = true) : IsChar [b] b.toNat :=
  have hb := lt_of_isWordByte h
  ⟨by simp, fun z => Utf8.decode?_ascii hb z, by rw [isIdentContinue_toNat hb, h],
    .inl ⟨b, hb, rfl, rfl⟩⟩

theorem identifier_append {char : Bytes} {code : Nat} (h : IsChar char code) (rest : Bytes) :
    Extent.identifier (char ++ rest) = char.length + Extent.identifier rest := by
  rw [Extent.identifier_char rest h.ne_nil (h.decode? rest), if_pos h.continues]

theorem isRun_append {char : Bytes} {code : Nat} (h : IsChar char code) (rest : Bytes) :
    IsRun (char ++ rest) ↔ IsRun rest := by
  unfold IsRun
  rw [h.identifier_append, List.length_append]
  omega

end IsChar

namespace IsRun

theorem nil : IsRun [] := rfl

theorem exists_char {text : Bytes} (h : IsRun text) (hne : text ≠ []) :
    ∃ char rest code, text = char ++ rest ∧ IsChar char code ∧ IsRun rest := by
  have hpos : 0 < text.length := List.length_pos_iff.2 hne
  unfold IsRun at h
  cases hd : Utf8.decode? text with
  | none =>
    rw [Extent.identifier_of_decode?_none hd] at h
    omega
  | some found =>
    obtain ⟨code, size⟩ := found
    obtain ⟨char, rest, rfl, hchar, rfl, hz, hb⟩ := Utf8.decode?_inv hd
    rw [Extent.identifier_char rest hchar hd] at h
    split at h
    · rename_i hc
      have hi : IsChar char code := ⟨hchar, hz, hc, hb⟩
      rw [← hi.identifier_append] at h
      exact ⟨char, rest, code, rfl, hi, (hi.isRun_append rest).1 h⟩
    · omega

@[elab_as_elim]
theorem induction {motive : (text : Bytes) → IsRun text → Prop} (nil : motive [] nil)
    (char : ∀ char rest code (hc : IsChar char code) (hr : IsRun rest), motive rest hr →
      motive (char ++ rest) ((hc.isRun_append rest).2 hr))
    {text : Bytes} (h : IsRun text) : motive text h := by
  generalize hn : text.length = n
  induction n using Nat.strongRecOn generalizing text with
  | _ n ih =>
    by_cases hne : text = []
    · subst hne
      exact nil
    obtain ⟨c, rest, code, rfl, hc, hr⟩ := exists_char h hne
    have hpos : 0 < c.length := List.length_pos_iff.2 hc.ne_nil
    simp only [List.length_append] at hn
    exact char c rest code hc hr (ih rest.length (by omega) hr rfl)

theorem identifier_append {text : Bytes} (h : IsRun text) (z : Bytes) :
    Extent.identifier (text ++ z) = text.length + Extent.identifier z := by
  induction h using IsRun.induction with
  | nil => simp
  | char c rest code hc _ ih =>
    rw [List.append_assoc, hc.identifier_append, ih, List.length_append, Nat.add_assoc]

theorem append_iff {text : Bytes} (h : IsRun text) (z : Bytes) : IsRun (text ++ z) ↔ IsRun z := by
  unfold IsRun
  rw [h.identifier_append, List.length_append]
  omega

theorem append {text z : Bytes} (h : IsRun text) (hz : IsRun z) : IsRun (text ++ z) :=
  (h.append_iff z).2 hz

theorem cons {b : UInt8} {text : Bytes} (hb : isWordByte b = true) (h : IsRun text) :
    IsRun (b :: text) :=
  ((IsChar.of_isWordByte hb).isRun_append text).2 h

theorem forall_mem {text : Bytes} (h : IsRun text) :
    ∀ b ∈ text, isWordByte b = true ∨ 0x80 ≤ b := by
  induction h using IsRun.induction with
  | nil => simp
  | char c rest code hc _ ih =>
    intro b hb
    rcases List.mem_append.1 hb with hb | hb
    · rcases hc.ascii_or with ⟨a, ha, rfl, rfl⟩ | hge
      · rw [List.mem_singleton] at hb
        subst hb
        have := hc.continues
        rw [isIdentContinue_toNat ha] at this
        exact .inl this
      · exact .inr (hge b hb)
    · exact ih b hb

/-- A run can be cut before an ASCII byte. -/
theorem of_append_cons {a z : Bytes} {c : UInt8} (hc : c < 0x80) (h : IsRun (a ++ c :: z)) :
    IsRun a ∧ IsRun (c :: z) := by
  generalize htext : a ++ c :: z = text at h
  induction h using IsRun.induction generalizing a with
  | nil => simp at htext
  | char w rest code hw hr ih =>
    by_cases ha : a = []
    · subst ha
      refine ⟨nil, ?_⟩
      rw [List.nil_append] at htext
      rw [htext]
      exact (hw.isRun_append rest).2 hr
    -- the first character ends inside `a`: it is one byte, or its bytes are above ASCII
    obtain ⟨a', rfl⟩ : ∃ a', a = w ++ a' := by
      rcases List.append_eq_append_iff.1 htext with ⟨m, hm, hrest⟩ | ⟨a', ha', -⟩
      · rcases m with _ | ⟨m0, m⟩
        · exact ⟨[], by simpa using hm.symm⟩
        have hm0 : c = m0 := by simpa using (List.cons.inj hrest).1
        rcases hw.ascii_or with ⟨b, -, hb, -⟩ | hge
        · rw [hb] at hm
          have := congrArg List.length hm
          have : 0 < a.length := List.length_pos_iff.2 ha
          simp at *
          omega
        · have := hge c (by rw [hm, hm0]; simp)
          exact absurd hc (by simpa using this)
      · exact ⟨a', ha'⟩
    rw [List.append_assoc, List.append_cancel_left_eq] at htext
    obtain ⟨h1, h2⟩ := ih htext
    exact ⟨(hw.isRun_append a').2 h1, h2⟩

theorem of_cons {b : UInt8} {text : Bytes} (hb : b < 0x80) (h : IsRun (b :: text)) :
    IsRun text := by
  rcases h.forall_mem b (by simp) with hw | hge
  · exact ((IsChar.of_isWordByte hw).isRun_append text).1 h
  · exact absurd hb (by simpa using hge)

end IsRun

/-- Every text is a run and a text that starts with no identifier character. -/
theorem Extent.exists_run (text : Bytes) :
    ∃ run rest, text = run ++ rest ∧ IsRun run ∧ identifier rest = 0 := by
  generalize hn : text.length = n
  induction n using Nat.strongRecOn generalizing text with
  | _ n ih =>
    by_cases h0 : identifier text = 0
    · exact ⟨[], text, rfl, IsRun.nil, h0⟩
    cases hd : Utf8.decode? text with
    | none => exact absurd (identifier_of_decode?_none hd) h0
    | some found =>
      obtain ⟨code, size⟩ := found
      obtain ⟨char, rest, rfl, hne, rfl, hz, hb⟩ := Utf8.decode?_inv hd
      have hpos : 0 < char.length := List.length_pos_iff.2 hne
      rw [identifier_char rest hne hd] at h0
      split at h0
      · rename_i hc
        have hi : IsChar char code := ⟨hne, hz, hc, hb⟩
        simp only [List.length_append] at hn
        obtain ⟨run, rest', rfl, hrun, hrest⟩ := ih rest.length (by omega) rest rfl
        exact ⟨char ++ run, rest', by simp, (hi.isRun_append run).2 hrun, hrest⟩
      · exact absurd rfl h0

/-! ## Names -/

theorem isIdentStart_replacement : isIdentStart Utf8.replacement = false := by decide +kernel

theorem exists_char_of_startsIdent {text : Bytes} (h : startsIdent text = true) :
    ∃ char rest code, text = char ++ rest ∧ IsChar char code ∧ isIdentStart code = true := by
  unfold startsIdent Utf8.headCode at h
  cases hd : Utf8.decode? text with
  | none =>
    rw [hd] at h
    simp [isIdentStart_replacement] at h
  | some found =>
    obtain ⟨code, size⟩ := found
    rw [hd] at h
    obtain ⟨char, rest, rfl, hne, rfl, hz, hb⟩ := Utf8.decode?_inv hd
    exact ⟨char, rest, code, rfl,
      ⟨hne, hz, isIdentContinue_of_isIdentStart h, hb⟩, h⟩

theorem startsIdent_char {char : Bytes} {code : Nat} (hc : IsChar char code) (z : Bytes) :
    startsIdent (char ++ z) = isIdentStart code := by
  simp [startsIdent, Utf8.headCode, hc.decode? z]

theorem startsIdent_append {text : Bytes} (h : startsIdent text = true) (z : Bytes) :
    startsIdent (text ++ z) = true := by
  obtain ⟨char, rest, code, rfl, hc, hs⟩ := exists_char_of_startsIdent h
  rw [List.append_assoc, startsIdent_char hc, hs]

theorem identifier_pos_of_startsIdent {text : Bytes} (h : startsIdent text = true) :
    0 < Extent.identifier text := by
  obtain ⟨char, rest, code, rfl, hc, -⟩ := exists_char_of_startsIdent h
  have := List.length_pos_iff.2 hc.ne_nil
  rw [hc.identifier_append]
  omega

/-- A run that starts as identifiers do. -/
structure IsName (text : Bytes) : Prop where
  run : IsRun text
  start : startsIdent text = true

namespace IsName

theorem ne_nil {text : Bytes} (h : IsName text) : text ≠ [] := by
  rintro rfl
  have := identifier_pos_of_startsIdent h.start
  simp [Extent.identifier, Extent.identifierFrom] at this

/-- What is read as an identifier, and the text behind it that does not continue it. -/
theorem exists_of_startsIdent {text : Bytes} (h : startsIdent text = true) :
    ∃ name rest, text = name ++ rest ∧ IsName name ∧ Extent.identifier rest = 0 := by
  obtain ⟨run, rest, rfl, hrun, hrest⟩ := Extent.exists_run text
  refine ⟨run, rest, rfl, ⟨hrun, ?_⟩, hrest⟩
  have hpos := identifier_pos_of_startsIdent h
  have hne : run ≠ [] := by
    rintro rfl
    rw [List.nil_append, hrest] at hpos
    exact absurd hpos (Nat.lt_irrefl 0)
  obtain ⟨char, run, code, rfl, hc, -⟩ := hrun.exists_char hne
  rw [List.append_assoc, startsIdent_char hc] at h
  rw [startsIdent_char hc, h]

/-- The first byte of a name: a letter, the underscore or a byte above ASCII. -/
theorem head {b : UInt8} {rest : Bytes} (h : IsName (b :: rest)) :
    (isWordByte b = true ∧ isDigitByte b = false) ∨ 0x80 ≤ b := by
  rcases h.run.forall_mem b (by simp) with hw | hge
  · left
    have hb := lt_of_isWordByte hw
    have hs := h.start
    have hn : b.toNat < 0x80 := by simpa [UInt8.lt_iff_toNat_lt] using hb
    simp only [startsIdent, Utf8.headCode, Utf8.decode?_ascii hb, isIdentStart_ascii _ hn] at hs
    simpa using hs
  · exact .inr hge

end IsName

end GetterRename
