import GetterRename.Proofs.Bounds.Literals

/-!
# Words, with a cursor

An identifier, a raw name, or a literal with letters in front of its quote: the first three bytes of
a word tell which of them it is.

* `Checked.prefixed?_unfold` — the look at the first bytes;
* `Checked.prefixed?_rawName`, `Checked.prefixed?_string` and others — the kinds of words;
* `Checked.word?_eq` — one word.
-/

namespace GetterRename.Checked

section Words

variable (src : Bytes)

def identifier? (c : Cursor) : Option (Bytes × Cursor) := do
  let stop ← identifierFrom? src (turns src) c
  let text ← slice? src c.pos stop.pos
  some (text, stop)

/-- A raw identifier or a literal with a letter in front of its quote, if there is one. -/
def prefixed? (c : Cursor) : Option (Option Found) := do
  let a ← peek? src c 0
  let b ← peek? src c 1
  let d ← peek? src c 2
  if a == byte 'r' && b == byte '#' && d != byte '"' && d != byte '#' then
    let rest ← slice? src (min (c.pos + 2) src.length : Nat) src.length
    if isIdentStart (Utf8.headCode rest) then
      let name ← bumps? src 2 c
      let (text, stop) ← identifier? src name
      some (some (.ok ([.token (.ident ("r#" ++ text) c.place)], stop)))
    else some none
  else if a == byte 'r' && (b == byte '"' || b == byte '#') then
    let quote ← bump? src c
    (raw? src c.pos quote).map some
  else if (a == byte 'b' || a == byte 'c') && b == byte '"' then
    let quote ← bump? src c
    (string? src c.pos quote).map some
  else if a == byte 'b' && b == byte '\'' then
    let quote ← bump? src c
    (character? src c.pos quote).map some
  else if (a == byte 'b' || a == byte 'c') && b == byte 'r' && (d == byte '"' || d == byte '#') then
    let quote ← bumps? src 2 c
    (raw? src c.pos quote).map some
  else some none

def word? (c : Cursor) : Option Found := do
  match ← prefixed? src c with
  | some found => some found
  | none =>
    let rest ← slice? src c.pos src.length
    if isIdentStart (Utf8.headCode rest) then
      let (text, stop) ← identifier? src c
      some (.ok ([.token (.ident text c.place)], stop))
    else some (.error ⟨c.place, .unexpected (Utf8.headCode rest)⟩)

end Words

variable {src : Bytes} {c : Cursor} {p : Pos} {b : UInt8} {rest : Bytes}

theorem identifier_le (text : Bytes) : Extent.identifier text ≤ text.length := by
  obtain ⟨run, rest, rfl, hrun, hrest⟩ := Extent.exists_run text
  rw [hrun.identifier_append, hrest, List.length_append]
  omega

theorem identifier?_eq {text : Bytes} (h : c.At src text p) :
    identifier? src c = some (text.take (Extent.identifier text),
      c.after (text.take (Extent.identifier text))) := by
  simp only [identifier?, identifierFrom?_eq h h.turns, Option.bind_eq_bind, Option.bind_some,
    h.slice? (identifier_le text)]

theorem cons_take_identifier (h : startsIdent (b :: rest) = true) :
    b :: rest.take (Extent.identifier (b :: rest) - 1) =
      (b :: rest).take (Extent.identifier (b :: rest)) := by
  obtain ⟨n, hn⟩ := Nat.exists_eq_succ_of_ne_zero (identifier_pos_of_startsIdent h).ne'
  rw [hn]
  rfl

open Piece

theorem slice?_behind_two {d : UInt8} (h : c.At src (b :: d :: rest) p) :
    slice? src (min (c.pos + 2) src.length : Nat) src.length = some rest := by
  have hlength := h.length
  have hmin : min (c.pos + 2) src.length = ((c.next b).next d).pos := by
    simp only [Cursor.pos_next, List.length_cons] at hlength ⊢
    omega
  rw [hmin]
  exact h.next.next.left

variable (h : c.At src (b :: rest) p)
include h

theorem prefixed?_unfold : prefixed? src c =
    if b == byte 'r' && rest.head? == some (byte '#') && !isQuoteOrHash rest[1]? then do
      let behind ← slice? src (min (c.pos + 2) src.length : Nat) src.length
      if startsIdent behind then
        let name ← bumps? src 2 c
        let (text, stop) ← identifier? src name
        some (some (.ok ([.token (.ident ("r#" ++ text) c.place)], stop)))
      else some none
    else if b == byte 'r' && isQuoteOrHash rest.head? then
      (raw? src c.pos (c.next b)).map some
    else if (b == byte 'b' || b == byte 'c') && rest.head? == some (byte '"') then
      (string? src c.pos (c.next b)).map some
    else if b == byte 'b' && rest.head? == some (byte '\'') then
      (character? src c.pos (c.next b)).map some
    else if (b == byte 'b' || b == byte 'c') && rest.head? == some (byte 'r') &&
        isQuoteOrHash rest[1]? then do
      let quote ← bumps? src 2 c
      (raw? src c.pos quote).map some
    else some none := by
  have hquote : byte '"' ≠ 0 := by decide
  have htick : byte '\'' ≠ 0 := by decide
  have hhash : byte '#' ≠ 0 := by decide
  have hletter : byte 'r' ≠ 0 := by decide
  simp only [prefixed?, h.peek?, h.bump?, Option.bind_eq_bind, Option.bind_some,
    List.getElem?_cons_succ, ← List.head?_eq_getElem?, List.head?_cons, Option.getD_some, bne,
    getD_beq hquote, getD_beq htick, getD_beq hhash, getD_beq hletter, Bool.and_assoc,
    isQuoteOrHash, Bool.not_or]
  rfl

/-- Nothing makes a raw name or a literal of a plain word. -/
theorem prefixed?_plain (hp : Plain b rest) : prefixed? src c = some none := by
  rw [prefixed?_unfold h]
  by_cases hr : b = byte 'r'
  · subst hr
    obtain ⟨hq, hraw⟩ := hp.raw rfl
    by_cases hh : rest.head? = some (byte '#')
    · -- a hash that no name follows
      obtain ⟨r, rfl⟩ := List.head?_eq_some_iff.1 hh
      simp only [isRawHash, List.head?_cons, beq_self_eq_true, Bool.true_and, Bool.or_eq_false_iff,
        List.drop_succ_cons, List.drop_zero] at hraw
      obtain ⟨hthird, hname⟩ := hraw
      rw [if_pos (by rw [hthird]; rfl), slice?_behind_two h, Option.bind_eq_bind, Option.bind_some,
        hname, if_neg Bool.false_ne_true]
    · have hne : byte 'r' ≠ byte 'b' ∧ byte 'r' ≠ byte 'c' := by decide
      simp [isQuoteOrHash, hh, hq, hne]
  · by_cases hbc : b = byte 'b' ∨ b = byte 'c'
    · have hstring := hp.string hbc
      have hraw := hp.rawString hbc
      have hchar := hp.char
      rw [if_neg (by simp [hr]), if_neg (by simp [hr]), if_neg (by simp [hstring]),
        if_neg (by simpa using hchar), if_neg]
      simp only [Bool.and_eq_true, beq_iff_eq]
      rintro ⟨⟨-, hhead⟩, hq⟩
      rw [hraw hhead] at hq
      exact Bool.false_ne_true hq
    · have hnot : b ≠ byte 'b' ∧ b ≠ byte 'c' := not_or.1 hbc
      simp [hr, hnot.1, hnot.2]

omit h

theorem prefixed?_rawName {name : Bytes} (h : c.At src (byte 'r' :: byte '#' :: name) p)
    (hq : isQuoteOrHash name.head? = false) (hs : startsIdent name = true) :
    prefixed? src c = some (some (answer c p (byte 'r') (byte '#' :: name)
      (word (byte 'r') (byte '#' :: name)))) := by
  have hat : c.At src ([byte 'r', byte '#'] ++ name) p := h
  have hname : (c.after [byte 'r', byte '#']).At src name (p.advance [byte 'r', byte '#']) :=
    hat.after
  have hbumps : bumps? src 2 c = some (c.after [byte 'r', byte '#']) := hat.bumps?
  have hthird : isQuoteOrHash (byte '#' :: name)[1]? = false := by
    rwa [List.getElem?_cons_succ, ← List.head?_eq_getElem?]
  have hmark : Bytes.ofString "r#" = [byte 'r', byte '#'] := by decide
  rw [prefixed?_unfold h, word_rawName hq hs, if_pos (by rw [hthird]; rfl)]
  simp only [slice?_behind_two h, hs, hbumps, identifier?_eq hname, Option.bind_eq_bind,
    Option.bind_some, if_true, h.place, answer, Nat.add_comm 1]
  rw [hmark]
  rfl

theorem prefixed?_rawString (h : c.At src (byte 'r' :: rest) p)
    (hq : rest.head? = some (byte '"') ∨
      (rest.head? = some (byte '#') ∧ isQuoteOrHash rest[1]? = true)) :
    prefixed? src c = some (some (answer c p (byte 'r') rest (word (byte 'r') rest))) := by
  have hor : isQuoteOrHash rest.head? = true := by
    rcases hq with hq | ⟨hq, -⟩ <;> simp [isQuoteOrHash, hq]
  have hfirst : (rest.head? == some (byte '#') && !isQuoteOrHash rest[1]?) = false := by
    rcases hq with hq | ⟨-, hq⟩
    · have hne : byte '"' ≠ byte '#' := by decide
      simp [hq, hne]
    · simp [hq]
  have hraw := raw?_eq [] h rfl (show byte '\n' ∉ [byte 'r'] by decide)
  rw [Cursor.after_cons, Cursor.after_nil] at hraw
  rw [prefixed?_unfold h, word_rawString hq]
  simp only [Bool.and_assoc, hfirst, hor, Bool.and_false, Bool.false_eq_true, if_false,
    beq_self_eq_true, Bool.and_self, if_true]
  rw [hraw]
  rfl

/-- The letters of a string or a raw string of bytes are on its line, and no `r`. -/
theorem letter_ne (hb : b = byte 'b' ∨ b = byte 'c') : b ≠ byte '\n' ∧ b ≠ byte 'r' := by
  rcases hb with rfl | rfl <;> decide

theorem prefixed?_string {body : Bytes} (h : c.At src (b :: byte '"' :: body) p)
    (hb : b = byte 'b' ∨ b = byte 'c') :
    prefixed? src c = some (some (answer c p b (byte '"' :: body) (word b (byte '"' :: body)))) := by
  obtain ⟨hline, hr⟩ := letter_ne hb
  have hstring := string?_eq [b] h rfl (by simpa using hline.symm)
  rw [Cursor.after_cons, Cursor.after_nil] at hstring
  rw [prefixed?_unfold h, word_string hb, if_neg (by simp [hr]), if_neg (by simp [hr]),
    if_pos (by simpa using hb), hstring]
  rfl

theorem prefixed?_char {body : Bytes} (h : c.At src (byte 'b' :: byte '\'' :: body) p) :
    prefixed? src c = some (some (answer c p (byte 'b') (byte '\'' :: body)
      (word (byte 'b') (byte '\'' :: body)))) := by
  have hchar := character?_eq [byte 'b'] h rfl (by decide)
  have hr : byte 'b' ≠ byte 'r' := by decide
  have hq : byte '\'' ≠ byte '"' := by decide
  rw [Cursor.after_cons, Cursor.after_nil] at hchar
  rw [prefixed?_unfold h, word_char, if_neg (by simp [hr]), if_neg (by simp [hr]),
    if_neg (by simp [hq]), if_pos (by simp), hchar]
  rfl

theorem prefixed?_rawBytes {body : Bytes} (h : c.At src (b :: byte 'r' :: body) p)
    (hb : b = byte 'b' ∨ b = byte 'c') (hq : isQuoteOrHash (byte 'r' :: body)[1]? = true) :
    prefixed? src c = some (some (answer c p b (byte 'r' :: body) (word b (byte 'r' :: body)))) := by
  obtain ⟨hline, hr⟩ := letter_ne hb
  have hnewline : byte '\n' ∉ [b, byte 'r'] := by
    have hr' : byte '\n' ≠ byte 'r' := by decide
    simp [hline.symm, hr']
  have hraw := raw?_eq [byte 'r'] h rfl hnewline
  have hbumps : bumps? src 2 c = some (c.after [b, byte 'r']) :=
    (show c.At src ([b, byte 'r'] ++ body) p from h).bumps?
  have hq1 : byte 'r' ≠ byte '"' := by decide
  have hq2 : byte 'r' ≠ byte '\'' := by decide
  rw [prefixed?_unfold h, word_rawBytes hb rfl hq, if_neg (by simp [hr]), if_neg (by simp [hr]),
    if_neg (by simp [hq1]), if_neg (by simp [hq2]), if_pos (by rw [hq]; simpa using hb)]
  simp only [hbumps, Option.bind_eq_bind, Option.bind_some]
  rw [hraw]
  rfl

theorem word?_plain (h : c.At src (b :: rest) p) (hp : Plain b rest) :
    word? src c = some (answer c p b rest (word b rest)) := by
  unfold word?
  rw [prefixed?_plain h hp, word_plain hp]
  simp only [Option.bind_eq_bind, Option.bind_some, h.left, identifier?_eq h, h.place]
  rw [← startsIdent]
  by_cases hs : startsIdent (b :: rest) = true
  · rw [if_pos hs, if_pos hs, answer, cons_take_identifier hs]
    rfl
  · rw [if_neg hs, if_neg hs]
    rfl

/-- **One word.**  Its first bytes say what it is, and the rest is read in the way of its kind. -/
theorem word?_eq (h : c.At src (b :: rest) p) :
    word? src c = some (answer c p b rest (word b rest)) := by
  have hprefixed : ∀ {found : Found}, prefixed? src c = some (some found) →
      word? src c = some found := by
    intro found hfound
    rw [word?, hfound]
    rfl
  rcases word_cases b rest with ⟨rfl, name, rfl, hq, hs⟩ | ⟨rfl, hq⟩ | ⟨hb, body, rfl⟩ |
    ⟨rfl, body, rfl⟩ | ⟨hb, hr, hq⟩ | hp
  · exact hprefixed (prefixed?_rawName h hq hs)
  · exact hprefixed (prefixed?_rawString h hq)
  · exact hprefixed (prefixed?_string h hb)
  · exact hprefixed (prefixed?_char h)
  · obtain ⟨body, rfl⟩ := List.head?_eq_some_iff.1 hr
    exact hprefixed (prefixed?_rawBytes h hb hq)
  · exact word?_plain h hp

end GetterRename.Checked
