import GetterRename.Proofs.Bounds.Cursor
import GetterRename.Proofs.Source.Lookahead

/-!
# Loops over a lexical element

The loops that look for the end of a lexical element, with a cursor.  Each moves on by at least one
byte in every turn, so none uses up its turns, and each stops where the extent of the element ends.

* `Checked.stringFrom?_eq`, `Checked.characterFrom?_eq`, `Checked.rawFrom?_eq`,
  `Checked.commentFrom?_eq` — elements with an end;
* `Checked.numberFrom?_eq`, `Checked.identifierFrom?_eq` — elements that stop before a byte.
-/

namespace GetterRename.Checked

/-! ### The loops -/

section Loops

variable (src : Bytes)

/-- The cursor behind the closing quote of a string, none at the end of the text. -/
def stringFrom? : Nat → Cursor → Option (Option Cursor)
  | 0, _ => none
  | n + 1, c =>
    if eof src c then some none
    else do
      let b ← peek? src c 0
      let c ← bump? src c
      if b = byte '\\' && !eof src c then
        let c ← bump? src c
        stringFrom? n c
      else if b = byte '"' then some (some c)
      else stringFrom? n c

/-- The cursor behind the closing quote of a character, none at the end of the line. -/
def characterFrom? : Nat → Cursor → Option (Option Cursor)
  | 0, _ => none
  | n + 1, c => do
    let b ← peek? src c 0
    if eof src c || b = byte '\n' then some none
    else
      let c ← bump? src c
      if b = byte '\\' && !eof src c then
        let c ← bump? src c
        characterFrom? n c
      else if b = byte '\'' then some (some c)
      else characterFrom? n c

/-- The cursor behind the closing quote of a raw string and its hashes. -/
def rawFrom? (closing : Bytes) : Nat → Cursor → Option (Option Cursor)
  | 0, _ => none
  | n + 1, c =>
    if eof src c then some none
    else do
      let head ← slice? src c.pos (min (c.pos + closing.length) src.length : Nat)
      if closing.isPrefixOf head then
        let c ← bumps? src closing.length c
        some (some c)
      else
        let c ← bump? src c
        rawFrom? closing n c

/-- The cursor behind a block comment while `depth` comments are open. -/
def commentFrom? : Nat → Nat → Cursor → Option (Option Cursor)
  | 0, _, _ => none
  | n + 1, depth, c =>
    if eof src c then some none
    else do
      let a ← peek? src c 0
      let b ← peek? src c 1
      let (depth, c) ←
        if a = byte '/' && b = byte '*' then (bumps? src 2 c).map (depth + 1, ·)
        else if a = byte '*' && b = byte '/' then (bumps? src 2 c).map (depth - 1, ·)
        else (bump? src c).map (depth, ·)
      if depth = 0 then some (some c) else commentFrom? n depth c

def numberFrom? (isHex : Bool) : Nat → Bool → Cursor → Option Cursor
  | 0, _, _ => none
  | n + 1, hasPoint, c =>
    if eof src c then some c
    else do
      let b ← peek? src c 0
      let next ← peek? src c 1
      if isWordByte b then
        let c ← bump? src c
        numberFrom? isHex n hasPoint c
      else if b == byte '.' && !hasPoint && isDigitByte next then
        let c ← bump? src c
        numberFrom? isHex n true c
      else if (b == byte '+' || b == byte '-') && !isHex then
        let last ← get? src ((c.pos : Int) - 1)
        if last == byte 'e' || last == byte 'E' then
          let c ← bump? src c
          numberFrom? isHex n hasPoint c
        else some c
      else some c

def identifierFrom? : Nat → Cursor → Option Cursor
  | 0, _ => none
  | n + 1, c =>
    if eof src c then some c
    else do
      let rest ← slice? src c.pos src.length
      if isIdentContinue (Utf8.headCode rest) then
        let c ← bumps? src (Utf8.headSize rest) c
        identifierFrom? n c
      else some c

end Loops

variable {src : Bytes} {c : Cursor} {text : Bytes} {p : Pos}

/-! ### Elements with an end -/

theorem stringFrom?_eq {n : Nat} (h : c.At src text p) (hn : text.length < n) :
    stringFrom? src n c = some ((Extent.string? text).map fun k => c.after (text.take k)) := by
  induction n generalizing c text p with
  | zero => omega
  | succ n ih =>
    simp only [stringFrom?, h.eof, h.peek?, Option.bind_eq_bind, Option.bind_some]
    obtain - | ⟨b, - | ⟨d, rest⟩⟩ := text
    · rfl
    · -- the last byte of the text
      have hnext := h.next
      simp only [List.isEmpty_cons, Bool.false_eq_true, if_false, h.bump?, Option.bind_some,
        hnext.eof, List.isEmpty_nil, Bool.not_true, Bool.and_false, List.getElem?_cons_zero,
        Option.getD_some, Extent.string?]
      split
      · rfl
      · rw [ih hnext (by simpa using hn)]
        rfl
    · have hnext := h.next
      simp only [List.isEmpty_cons, Bool.false_eq_true, if_false, h.bump?, Option.bind_some,
        hnext.eof, Bool.not_false, Bool.and_true, decide_eq_true_eq, List.getElem?_cons_zero,
        Option.getD_some, Extent.string?, hnext.bump?]
      split
      · rw [ih hnext.next (by simp at hn; omega), Option.map_map]
        rfl
      split
      · rfl
      · rw [ih hnext (by simpa using hn), Option.map_map]
        rfl

theorem characterFrom?_eq {n : Nat} (h : c.At src text p) (hn : text.length < n) :
    characterFrom? src n c =
      some ((Extent.character? text).map fun k => c.after (text.take k)) := by
  induction n generalizing c text p with
  | zero => omega
  | succ n ih =>
    simp only [characterFrom?, h.eof, h.peek?, Option.bind_eq_bind, Option.bind_some]
    obtain - | ⟨b, - | ⟨d, rest⟩⟩ := text
    · rfl
    · have hnext := h.next
      simp only [List.isEmpty_cons, Bool.false_or, h.bump?, Option.bind_some, hnext.eof,
        List.isEmpty_nil, Bool.not_true, Bool.and_false, Bool.false_eq_true, if_false,
        List.getElem?_cons_zero, Option.getD_some, Extent.character?, decide_eq_true_eq]
      split
      · rename_i hb
        rw [if_neg (by rw [hb]; decide)]
        rfl
      split
      · rfl
      · rw [ih hnext (by simpa using hn)]
        rfl
    · have hnext := h.next
      simp only [List.isEmpty_cons, Bool.false_or, h.bump?, Option.bind_some, hnext.eof,
        Bool.not_false, Bool.and_true, decide_eq_true_eq, List.getElem?_cons_zero,
        Option.getD_some, Extent.character?, hnext.bump?]
      split
      · rfl
      split
      · rw [ih hnext.next (by simp at hn; omega), Option.map_map]
        rfl
      split
      · rfl
      · rw [ih hnext (by simpa using hn), Option.map_map]
        rfl

theorem isPrefixOf_take (closing text : Bytes) :
    closing.isPrefixOf (text.take closing.length) = closing.isPrefixOf text := by
  rw [Bool.eq_iff_iff, List.isPrefixOf_iff_prefix, List.isPrefixOf_iff_prefix]
  constructor
  · intro h
    exact h.trans (List.take_prefix _ _)
  · intro h
    exact List.prefix_take_iff.2 ⟨h, Nat.le_refl _⟩

theorem rawFrom?_eq {closing : Bytes} {n : Nat} (h : c.At src text p) (hn : text.length < n) :
    rawFrom? src closing n c =
      some ((Extent.through? closing text).map fun k => c.after (text.take k)) := by
  induction n generalizing c text p with
  | zero => omega
  | succ n ih =>
    simp only [rawFrom?, h.eof, h.ahead, Option.bind_eq_bind, Option.bind_some, isPrefixOf_take]
    obtain - | ⟨b, rest⟩ := text
    · rfl
    simp only [List.isEmpty_cons, Bool.false_eq_true, if_false, Extent.through?, h.bump?,
      Option.bind_some]
    split
    · rename_i hclosing
      obtain ⟨z, hz⟩ := List.isPrefixOf_iff_prefix.1 hclosing
      rw [(hz ▸ h : c.At src (closing ++ z) p).bumps?, ← hz]
      simp
    · rw [ih h.next (by simpa using hn), Option.map_map]
      rfl

theorem commentFrom?_eq {n depth : Nat} (h : c.At src text p) (hn : text.length < n) :
    commentFrom? src n (depth + 1) c =
      some ((Extent.comment? (depth + 1) text).map fun k => c.after (text.take k)) := by
  induction n generalizing c text p depth with
  | zero => omega
  | succ n ih =>
    simp only [commentFrom?, h.eof, h.peek?, Option.bind_eq_bind, Option.bind_some]
    obtain - | ⟨a, - | ⟨b, rest⟩⟩ := text
    · rfl
    · -- one byte does not end a comment
      have hslash : (0 : UInt8) ≠ byte '/' := by decide
      have hstar : (0 : UInt8) ≠ byte '*' := by decide
      simp only [List.isEmpty_cons, Bool.false_eq_true, if_false, List.getElem?_cons_zero,
        List.getElem?_cons_succ, List.getElem?_nil, Option.getD_some, Option.getD_none, h.bump?,
        hslash, hstar, decide_false, Bool.and_false, Option.map_some, Option.bind_some,
        Nat.succ_ne_zero, Extent.comment?]
      rw [ih h.next (by simpa using hn)]
      rfl
    · have hnext := h.next
      have hbumps : bumps? src 2 c = some ((c.next a).next b) :=
        (show c.At src ([a, b] ++ rest) p from h).bumps?
      simp only [List.isEmpty_cons, Bool.false_eq_true, if_false, List.getElem?_cons_zero,
        List.getElem?_cons_succ, Option.getD_some, h.bump?, hbumps, Option.map_some, Extent.comment?]
      split
      · rw [Option.bind_some, if_neg (Nat.succ_ne_zero _), ih hnext.next (by simp at hn; omega),
          Option.map_map]
        rfl
      split
      · simp only [Option.bind_some, Nat.add_sub_cancel]
        cases depth with
        | zero =>
          rw [if_pos rfl, Extent.comment?]
          rfl
        | succ depth =>
          rw [if_neg (Nat.succ_ne_zero _), ih hnext.next (by simp at hn; omega), Option.map_map]
          rfl
      · rw [Option.bind_some, if_neg (Nat.succ_ne_zero _), ih hnext (by simpa using hn),
          Option.map_map]
        rfl

/-! ### Elements that stop before a byte -/

/-- The loop over a number; the byte read last stands right before the cursor. -/
theorem numberFrom?_eq {isHex hasPoint : Bool} {n : Nat} {last : UInt8} (h : c.At src text p)
    (hn : text.length < n) (hpos : 0 < c.pos) (hlast : src[c.pos - 1]? = some last) :
    numberFrom? src isHex n hasPoint c =
      some (c.after (text.take (Extent.number isHex hasPoint last text))) := by
  induction n generalizing c text p hasPoint last with
  | zero => omega
  | succ n ih =>
    simp only [numberFrom?, h.eof, h.peek?, Option.bind_eq_bind, Option.bind_some]
    obtain - | ⟨b, rest⟩ := text
    · rfl
    have hnext := h.next
    -- behind the byte `b` the loop goes on
    have hgo : ∀ hasPoint, numberFrom? src isHex n hasPoint (c.next b) =
        some (c.after ((b :: rest).take (Extent.number isHex hasPoint b rest + 1))) := by
      intro hasPoint
      have hread := h.getElem? 0
      rw [Nat.add_zero, List.getElem?_cons_zero] at hread
      have hpos' : 0 < (c.next b).pos := by simp
      have hlast' : src[(c.next b).pos - 1]? = some b := by simpa using hread
      rw [ih hnext (by simpa using hn) hpos' hlast']
      rfl
    have hdigit : isDigitByte (rest.head?.getD 0) = rest.head?.any isDigitByte := by
      cases rest with
      | nil => rfl
      | cons d rest => rfl
    simp only [List.isEmpty_cons, Bool.false_eq_true, if_false, List.getElem?_cons_zero,
      List.getElem?_cons_succ, Option.getD_some, h.bump?, Option.bind_some]
    rw [← List.head?_eq_getElem?, hdigit]
    simp only [hgo, get?_pred src hpos, hlast, Option.bind_some, Extent.number]
    split
    · rfl
    split
    · rfl
    split
    · rename_i hsign
      simp only [hsign, Bool.true_and]
      split <;> rfl
    · rename_i hsign
      simp only [hsign, Bool.false_and, Bool.false_eq_true, if_false]
      rfl

theorem identifierFrom?_eq {n : Nat} (h : c.At src text p) (hn : text.length < n) :
    identifierFrom? src n c = some (c.after (text.take (Extent.identifier text))) := by
  induction n generalizing c text p with
  | zero => omega
  | succ n ih =>
    simp only [identifierFrom?, h.eof, h.left, Option.bind_eq_bind, Option.bind_some]
    cases hdecode : Utf8.decode? text with
    | none =>
      have hcode : Utf8.headCode text = Utf8.replacement := by simp [Utf8.headCode, hdecode]
      have hreplacement : isIdentContinue Utf8.replacement = false := by decide +kernel
      rw [hcode, hreplacement, Extent.identifier_of_decode?_none hdecode]
      split <;> rfl
    | some found =>
      obtain ⟨code, size⟩ := found
      obtain ⟨char, rest, rfl, hne, rfl, -, -⟩ := Utf8.decode?_inv hdecode
      have hcode : Utf8.headCode (char ++ rest) = code := by simp [Utf8.headCode, hdecode]
      have hsize : Utf8.headSize (char ++ rest) = char.length := by simp [Utf8.headSize, hdecode]
      have hempty : (char ++ rest).isEmpty = false := by simp [hne]
      have hlen : 0 < char.length := List.length_pos_iff.2 hne
      rw [hcode, hsize, hempty, Extent.identifier_char rest hne hdecode]
      simp only [Bool.false_eq_true, if_false]
      split
      · rw [h.bumps?, Option.bind_some, ih h.after (by simp at hn; omega), ← Cursor.after_append,
          List.take_length_add_append]
      · rfl

end GetterRename.Checked
