import GetterRename.Proofs.Bounds.Access
import GetterRename.Proofs.Source.Reading

/-!
# A cursor in a text

The cursor of a scanner: a position in the text, the number of its line, and the position where that
line starts.  Reading ahead gives a zero behind the end of the text; moving the cursor reads the byte
it stands on, so it never comes past the end.

* `Checked.Cursor` — a place in a text;
* `Checked.peek?`, `Checked.bump?` — reading ahead, and moving on by one byte;
* `Checked.Cursor.At` — what is left of the text behind the cursor, and the place of its first byte;
* `Checked.skipWhile?_eq` — the loop over bytes of a kind.
-/

namespace GetterRename.Checked

/-- A place in a text. -/
structure Cursor where
  pos : Nat
  line : Nat
  /-- Where the line starts. -/
  lineStart : Nat
  deriving DecidableEq, Repr

namespace Cursor

def next (c : Cursor) (b : UInt8) : Cursor :=
  if b = byte '\n' then ⟨c.pos + 1, c.line + 1, c.pos + 1⟩ else ⟨c.pos + 1, c.line, c.lineStart⟩

/-- The cursor behind a text that starts where it stands. -/
def after (c : Cursor) (text : Bytes) : Cursor := text.foldl next c

def placeOf (c : Cursor) (start : Nat) : Pos := ⟨c.line, start - c.lineStart⟩

def place (c : Cursor) : Pos := c.placeOf c.pos

@[simp] theorem after_nil (c : Cursor) : c.after [] = c := rfl

@[simp] theorem after_cons (c : Cursor) (b : UInt8) (text : Bytes) :
    c.after (b :: text) = (c.next b).after text := rfl

theorem after_append (c : Cursor) (a b : Bytes) : c.after (a ++ b) = (c.after a).after b := by
  simp [after]

@[simp] theorem pos_next (c : Cursor) (b : UInt8) : (c.next b).pos = c.pos + 1 := by
  unfold next
  split <;> rfl

@[simp] theorem pos_after (c : Cursor) (text : Bytes) : (c.after text).pos = c.pos + text.length := by
  induction text generalizing c with
  | nil => rfl
  | cons b text ih =>
    rw [after_cons, ih, pos_next, List.length_cons]
    omega

/-- A text without a newline keeps the cursor on its line. -/
theorem placeOf_after {text : Bytes} (h : byte '\n' ∉ text) (c : Cursor) (start : Nat) :
    (c.after text).placeOf start = c.placeOf start := by
  induction text generalizing c with
  | nil => rfl
  | cons b text ih =>
    obtain ⟨hb, htext⟩ := List.ne_and_not_mem_of_not_mem_cons h
    rw [after_cons, ih htext, next, if_neg hb.symm]
    rfl

end Cursor

/-! ### Reading and moving -/

section Steps

variable (src : Bytes)

def eof (c : Cursor) : Bool := src.length ≤ c.pos

/-- The byte `k` places ahead of the cursor, zero behind the end of the text. -/
def peek? (c : Cursor) (k : Nat) : Option UInt8 :=
  if src.length ≤ c.pos + k then some 0 else get? src (c.pos + k : Nat)

def bump? (c : Cursor) : Option Cursor := do
  let b ← get? src c.pos
  return c.next b

/-- The cursor moved on by several bytes. -/
def bumps? : Nat → Cursor → Option Cursor
  | 0, c => some c
  | n + 1, c => do
    let c ← bump? src c
    bumps? n c

/-- The cursor moved on while it stands on a byte of a kind. -/
def skipWhileFrom? (p : UInt8 → Bool) : Nat → Cursor → Option Cursor
  | 0, _ => none
  | n + 1, c => do
    let b ← peek? src c 0
    if !eof src c && p b then
      let c ← bump? src c
      skipWhileFrom? p n c
    else some c

def skipWhile? (p : UInt8 → Bool) (c : Cursor) : Option Cursor := skipWhileFrom? src p (turns src) c

end Steps

/-- The cursor stands in front of what is left of the text, and `p` is the place of its first
byte. -/
structure Cursor.At (src : Bytes) (c : Cursor) (text : Bytes) (p : Pos) : Prop where
  inside : c.pos ≤ src.length
  text : src.drop c.pos = text
  line : c.line = p.line
  col : c.pos = c.lineStart + p.col

variable {src : Bytes} {c : Cursor} {text : Bytes} {p : Pos} {b : UInt8} {rest : Bytes}

namespace Cursor.At

theorem length (h : At src c text p) : src.length = c.pos + text.length := by
  have := h.inside
  rw [← h.text, List.length_drop]
  omega

theorem place (h : At src c text p) : c.place = p := by
  have hcol : c.pos - c.lineStart = p.col := by
    have := h.col
    omega
  rw [Cursor.place, Cursor.placeOf, h.line, hcol]

theorem getElem? (h : At src c text p) (k : Nat) : src[c.pos + k]? = text[k]? := by
  rw [← h.text, List.getElem?_drop]

theorem eof (h : At src c text p) : eof src c = text.isEmpty := by
  have hlen := h.length
  cases text with
  | nil => simp [Checked.eof, hlen]
  | cons b rest => simp [Checked.eof, hlen]

theorem peek? (h : At src c text p) (k : Nat) : peek? src c k = some (text[k]?.getD 0) := by
  have hlen := h.length
  unfold Checked.peek?
  split
  · rw [List.getElem?_eq_none (by omega)]
    rfl
  · have hk : k < text.length := by omega
    rw [get?_natCast, h.getElem? k, List.getElem?_eq_getElem hk]
    rfl

theorem next (h : At src c (b :: rest) p) : At src (c.next b) rest (p.next b) := by
  have hlen := h.length
  have hcol := h.col
  have hline := h.line
  refine ⟨?_, ?_, ?_, ?_⟩
  · simp only [pos_next, List.length_cons] at hlen ⊢
    omega
  · rw [pos_next, ← List.tail_drop, h.text]
    rfl
  · unfold Cursor.next Pos.next
    split <;> simp [hline]
  · unfold Cursor.next Pos.next
    split
    · rfl
    · simp only
      omega

theorem bump? (h : At src c (b :: rest) p) : bump? src c = some (c.next b) := by
  have hget := h.getElem? 0
  simp only [Nat.add_zero, List.getElem?_cons_zero] at hget
  simp [Checked.bump?, hget]

theorem after {a : Bytes} (h : At src c (a ++ text) p) : At src (c.after a) text (p.advance a) := by
  induction a generalizing c p with
  | nil => exact h
  | cons b a ih => exact ih h.next

theorem after_take (h : At src c text p) (n : Nat) :
    At src (c.after (text.take n)) (text.drop n) (p.advance (text.take n)) := by
  apply after
  rwa [List.take_append_drop]

theorem bumps? {a : Bytes} (h : At src c (a ++ text) p) :
    bumps? src a.length c = some (c.after a) := by
  induction a generalizing c p with
  | nil => rfl
  | cons b a ih =>
    simp only [List.length_cons, Checked.bumps?, h.bump?, Option.bind_eq_bind, Option.bind_some]
    exact ih h.next

/-- What has been read since the cursor stood there. -/
theorem slice? (h : At src c text p) {n : Nat} (hn : n ≤ text.length) :
    slice? src c.pos (c.after (text.take n)).pos = some (text.take n) := by
  have hlen := h.length
  have hpos : (c.after (text.take n)).pos = c.pos + n := by
    rw [pos_after, List.length_take, Nat.min_eq_left hn]
  rw [hpos, slice?_natCast src (by omega) (by omega), List.drop_take, h.text]
  simp

theorem ahead (h : At src c text p) (k : Nat) :
    Checked.slice? src c.pos (min (c.pos + k) src.length : Nat) = some (text.take k) := by
  have hlen := h.length
  have hmin : min (c.pos + k) src.length = c.pos + min k text.length := by omega
  have htake : text.take (min k text.length) = text.take k := by
    rw [List.take_eq_take_iff]
    omega
  rw [slice?_natCast src (by omega) (by omega), hmin, List.drop_take, h.text, Nat.add_sub_cancel_left,
    htake]

/-- All that is left of the text. -/
theorem left (h : At src c text p) : Checked.slice? src c.pos src.length = some text := by
  rw [slice?_rest src h.inside, h.text]

theorem turns (h : At src c text p) : text.length < Checked.turns src := by
  have := h.length
  unfold Checked.turns
  omega

end Cursor.At

/-! ### The loop over bytes of a kind -/

theorem skipWhileFrom?_eq (q : UInt8 → Bool) {n : Nat} (h : c.At src text p)
    (hn : text.length < n) :
    skipWhileFrom? src q n c = some (c.after (text.takeWhile q)) := by
  induction n generalizing c text p with
  | zero => omega
  | succ n ih =>
    simp only [skipWhileFrom?, h.peek?, h.eof, Option.bind_eq_bind, Option.bind_some]
    cases text with
    | nil => simp
    | cons b rest =>
      simp only [List.isEmpty_cons, Bool.not_false, Bool.true_and, List.getElem?_cons_zero,
        Option.getD_some, List.takeWhile_cons]
      split
      · rw [h.bump?, Option.bind_some, ih h.next (by simpa using hn), Cursor.after_cons]
      · rfl

/-- **Bytes of a kind.**  The loop over them ends, and the cursor stands behind them. -/
theorem skipWhile?_eq (q : UInt8 → Bool) (h : c.At src text p) :
    skipWhile? src q c = some (c.after (text.takeWhile q)) :=
  skipWhileFrom?_eq q h h.turns

end GetterRename.Checked
