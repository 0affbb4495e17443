import GetterRename.Proofs.Source.Reading
import Mathlib.Algebra.GroupWithZero.Nat

/-!
# Places and lines

A place counts lines and columns; a file is a sequence of bytes.  The bytes in front of a place are
those of the lines before it and as many more as its column says, and on the first line those of a
byte order mark as well, which has no columns.

* `Bytes.lines`, `Bytes.lineStart` — the physical lines of a text;
* `Pos.offset` — the number of bytes in front of a place;
* `Pos.offset_advance` — the place behind some bytes is behind these bytes;
* `Bytes.exists_line_of_part` — the lines of a part of a text are on lines of the text.
-/

namespace GetterRename

/-! ### Lines -/

namespace Bytes

/-- The physical lines of a text, without their ends. -/
def lines (text : Bytes) : List Bytes := splitOn (byte '\n') text

/-- The number of bytes in front of the line behind the first `n` lines. -/
def lineStart (text : Bytes) (n : Nat) : Nat := (((lines text).take n).map (·.length + 1)).sum

theorem lines_newline (text : Bytes) : lines (byte '\n' :: text) = [] :: lines text := by
  simp [lines, splitOn]

theorem lines_cons {b : UInt8} (hb : b ≠ byte '\n') (text : Bytes) :
    ∃ first rest, lines text = first :: rest ∧ lines (b :: text) = (b :: first) :: rest := by
  have hne : lines text ≠ [] := by
    cases text with
    | nil => simp [lines, splitOn]
    | cons c text =>
      simp only [lines, splitOn]
      split
      · simp
      · split <;> simp
  obtain ⟨first, rest, h⟩ := List.exists_cons_of_ne_nil hne
  refine ⟨first, rest, h, ?_⟩
  unfold lines at h ⊢
  rw [splitOn, if_neg hb, h]

@[simp] theorem lineStart_zero (text : Bytes) : lineStart text 0 = 0 := rfl

theorem lineStart_newline (text : Bytes) (n : Nat) :
    lineStart (byte '\n' :: text) (n + 1) = lineStart text n + 1 := by
  simp [lineStart, lines_newline, Nat.add_comm]

theorem lineStart_cons {b : UInt8} (hb : b ≠ byte '\n') (text : Bytes) (n : Nat) :
    lineStart (b :: text) (n + 1) = lineStart text (n + 1) + 1 := by
  obtain ⟨first, rest, htext, hcons⟩ := lines_cons hb text
  simp only [lineStart, htext, hcons, List.take_succ_cons, List.map_cons, List.sum_cons,
    List.length_cons]
  omega

theorem lineStart_append {head : Bytes} (h : byte '\n' ∉ head) (text : Bytes) (n : Nat) :
    lineStart (head ++ text) (n + 1) = head.length + lineStart text (n + 1) := by
  induction head with
  | nil => simp
  | cons b head ih =>
    rw [List.mem_cons, not_or] at h
    rw [List.cons_append, lineStart_cons (fun hb => h.1 hb.symm), ih h.2, List.length_cons]
    omega

/-- The lines behind the beginning of a text end the lines of the text. -/
theorem exists_line_of_suffix (head : Bytes) {text line : Bytes} {i : Nat}
    (h : (lines text)[i]? = some line) :
    ∃ whole, (lines (head ++ text))[i + head.count (byte '\n')]? = some whole ∧
      line <:+ whole := by
  induction head with
  | nil => exact ⟨line, h, List.suffix_refl _⟩
  | cons b head ih =>
    obtain ⟨whole, hwhole, hline⟩ := ih
    by_cases hb : b = byte '\n'
    · subst hb
      refine ⟨whole, ?_, hline⟩
      rw [List.cons_append, lines_newline, List.count_cons_self, ← Nat.add_assoc,
        List.getElem?_cons_succ]
      exact hwhole
    · obtain ⟨first, rest, htext, hcons⟩ := lines_cons hb (head ++ text)
      rw [List.cons_append, hcons, List.count_cons_of_ne hb]
      rw [htext] at hwhole
      cases hi : i + head.count (byte '\n') with
      | zero =>
        rw [hi] at hwhole
        obtain rfl : first = whole := by simpa using hwhole
        exact ⟨b :: first, rfl, hline.trans (List.suffix_cons b first)⟩
      | succ n =>
        rw [hi] at hwhole
        exact ⟨whole, by simpa using hwhole, hline⟩

theorem exists_line_of_prefix {text line : Bytes} {i : Nat} (h : (lines text)[i]? = some line)
    (tail : Bytes) : ∃ whole, (lines (text ++ tail))[i]? = some whole ∧ line <+: whole := by
  induction text generalizing i line with
  | nil =>
    obtain ⟨rfl, rfl⟩ : i = 0 ∧ line = [] := by
      cases i <;> simp_all [lines, splitOn]
    cases tail with
    | nil => exact ⟨[], rfl, List.prefix_refl _⟩
    | cons c tail =>
      by_cases hc : c = byte '\n'
      · subst hc
        exact ⟨[], by simp [lines_newline], List.prefix_refl _⟩
      · obtain ⟨first, rest, -, hcons⟩ := lines_cons hc tail
        exact ⟨c :: first, by simp [hcons], List.nil_prefix⟩
  | cons b text ih =>
    by_cases hb : b = byte '\n'
    · subst hb
      rw [List.cons_append]
      rw [lines_newline] at h ⊢
      cases i with
      | zero => exact ⟨[], rfl, by simp_all⟩
      | succ n => exact ih (by simpa using h)
    · obtain ⟨first, rest, htext, hcons⟩ := lines_cons hb text
      obtain ⟨first', rest', htext', hcons'⟩ := lines_cons hb (text ++ tail)
      rw [hcons] at h
      rw [List.cons_append, hcons']
      cases i with
      | zero =>
        obtain rfl : b :: first = line := by simpa using h
        obtain ⟨whole, hwhole, hline⟩ := @ih first 0 (by simp [htext])
        obtain rfl : first' = whole := by simpa [htext'] using hwhole
        exact ⟨b :: first', rfl, by simpa using hline⟩
      | succ n =>
        obtain ⟨whole, hwhole, hline⟩ := @ih line (n + 1) (by simpa [htext] using h)
        exact ⟨whole, by simpa [htext'] using hwhole, hline⟩

/-- **The lines of a part** of a text are parts of lines of the text. -/
theorem exists_line_of_part (head : Bytes) {text line : Bytes} {i : Nat}
    (h : (lines text)[i]? = some line) (tail : Bytes) :
    ∃ whole, (lines (head ++ (text ++ tail)))[i + head.count (byte '\n')]? = some whole ∧
      line <:+: whole := by
  obtain ⟨mid, hmid, hline⟩ := exists_line_of_prefix h tail
  obtain ⟨whole, hwhole, hsuffix⟩ := exists_line_of_suffix head hmid
  exact ⟨whole, hwhole, hline.isInfix.trans hsuffix.isInfix⟩

/-- A byte order mark at the head of a text, or nothing. -/
def mark (src : Bytes) : Bytes :=
  if startsWith src Event.byteOrderMark then Event.byteOrderMark else []

theorem mark_append (src : Bytes) : mark src ++ dropHead Event.byteOrderMark src = src := by
  unfold mark dropHead after?
  split
  · rename_i h
    obtain ⟨rest, rfl⟩ := List.isPrefixOf_iff_prefix.1 h
    simp
  · rfl

theorem mark_no_newline (src : Bytes) : byte '\n' ∉ mark src := by
  unfold mark
  split
  · decide
  · exact List.not_mem_nil

end Bytes

/-! ### Places -/

namespace Pos

/-- The number of bytes of a file in front of a place. -/
def offset (src : Bytes) (p : Pos) : Nat :=
  Bytes.lineStart src (p.line - 1) + p.col + if p.line = 1 then (Bytes.mark src).length else 0

theorem line_advance_count (p : Pos) (text : Bytes) :
    (p.advance text).line = p.line + text.count (byte '\n') := by
  induction text generalizing p with
  | nil => rfl
  | cons b text ih =>
    rw [advance_cons, ih]
    unfold next
    by_cases hb : b = byte '\n'
    · subst hb
      rw [if_pos rfl, List.count_cons_self]
      show p.line + 1 + _ = _
      omega
    · rw [if_neg hb, List.count_cons_of_ne hb]

/-- The place behind `text`, counted from any place: on the same line the column goes on. -/
theorem lineStart_advance (l c : Nat) (text rest : Bytes) :
    Bytes.lineStart (text ++ rest) (((⟨l, c⟩ : Pos).advance text).line - l) +
        ((⟨l, c⟩ : Pos).advance text).col =
      text.length + if ((⟨l, c⟩ : Pos).advance text).line = l then c else 0 := by
  induction text generalizing l c with
  | nil => simp
  | cons b text ih =>
    rw [advance_cons, List.cons_append, List.length_cons]
    by_cases hb : b = byte '\n'
    · subst hb
      have hnext : next ⟨l, c⟩ (byte '\n') = ⟨l + 1, 0⟩ := if_pos rfl
      have hline := line_advance_count ⟨l + 1, 0⟩ text
      have hrest := ih (l + 1) 0
      rw [hnext]
      generalize (⟨l + 1, 0⟩ : Pos).advance text = q at hline hrest ⊢
      have hpast : q.line - l = q.line - (l + 1) + 1 := by
        simp only at hline
        omega
      rw [hpast, Bytes.lineStart_newline, if_neg (by omega)]
      simp only [ite_self] at hrest
      omega
    · have hnext : next ⟨l, c⟩ b = ⟨l, c + 1⟩ := if_neg hb
      have hline := line_advance_count ⟨l, c + 1⟩ text
      have hrest := ih l (c + 1)
      rw [hnext]
      generalize (⟨l, c + 1⟩ : Pos).advance text = q at hline hrest ⊢
      cases hn : q.line - l with
      | zero =>
        have hsame : q.line = l := by
          simp only at hline
          omega
        rw [hn, Bytes.lineStart_zero, if_pos hsame] at hrest
        rw [Bytes.lineStart_zero, if_pos hsame]
        omega
      | succ n =>
        rw [hn] at hrest
        rw [Bytes.lineStart_cons hb, if_neg (by omega)]
        rw [if_neg (by omega)] at hrest
        omega

/-- **The place behind some bytes.**  It is behind these bytes and the byte order mark. -/
theorem offset_advance {src text rest : Bytes}
    (h : Bytes.dropHead Event.byteOrderMark src = text ++ rest) :
    offset src ((⟨1, 0⟩ : Pos).advance text) = (Bytes.mark src).length + text.length := by
  have hplace := lineStart_advance 1 0 text rest
  have hline := line_advance_count ⟨1, 0⟩ text
  have hsrc := Bytes.mark_append src
  rw [ite_self, ← h] at hplace
  unfold offset
  generalize (⟨1, 0⟩ : Pos).advance text = q at hplace hline ⊢
  simp only at hline
  cases hn : q.line - 1 with
  | zero =>
    rw [hn, Bytes.lineStart_zero] at hplace
    rw [Bytes.lineStart_zero, if_pos (by omega)]
    omega
  | succ n =>
    rw [hn] at hplace
    rw [if_neg (by omega), ← hsrc, Bytes.lineStart_append (Bytes.mark_no_newline src), hsrc]
    omega

end Pos

end GetterRename
