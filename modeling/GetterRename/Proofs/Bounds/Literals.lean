import GetterRename.Proofs.Bounds.Extents

/-!
# Literals, with a cursor

Reading one literal: the loop to its end, the loop over its suffix, and the slice of the text that
its token holds.  The loops start behind the quote, so the place of the first byte is handed to them.

* `Checked.Found` — what an element reports, and the cursor behind it;
* `Checked.answer` — the same by the front of the text;
* `Checked.string?_eq`, `Checked.character?_eq`, `Checked.raw?_eq` — literals with quotes;
* `Checked.tick?_eq`, `Checked.number?_eq` — ticks and numbers.
-/

namespace GetterRename.Checked

/-- What an element reports, and the cursor behind it. -/
abbrev Found := Except SyntaxError (List Event × Cursor)

section Literals

variable (src : Bytes)

/-- The literal that starts at `start`, with its suffix, or the fault of one that is never closed. -/
def finish? (start : Nat) (place : Pos) (fault : Fault) : Option Cursor → Option Found
  | none => some (.error ⟨place, fault⟩)
  | some c => do
    let c ← skipWhile? src isWordByte c
    let text ← slice? src start c.pos
    some (.ok ([.token (.literal text place)], c))

def string? (start : Nat) (c : Cursor) : Option Found := do
  let inner ← bump? src c
  let stop ← stringFrom? src (turns src) inner
  finish? src start (c.placeOf start) .unterminatedString stop

def character? (start : Nat) (c : Cursor) : Option Found := do
  let inner ← bump? src c
  let stop ← characterFrom? src (turns src) inner
  finish? src start (c.placeOf start) .unterminatedChar stop

def raw? (start : Nat) (c : Cursor) : Option Found := do
  let quote ← skipWhile? src (· == byte '#') c
  let b ← peek? src quote 0
  if b != byte '"' then some (.error ⟨c.placeOf start, .invalidRaw⟩)
  else
    let inner ← bump? src quote
    let closing := byte '"' :: List.replicate (quote.pos - c.pos) (byte '#')
    let stop ← rawFrom? src closing (turns src) inner
    finish? src start (c.placeOf start) .unterminatedRaw stop

/-- A character, or the tick of a lifetime or a label. -/
def tick? (c : Cursor) : Option Found := do
  let b ← peek? src c 1
  if b == byte '\\' then character? src c.pos c
  else
    let rest ← slice? src (c.pos + 1 : Nat) src.length
    let close ← peek? src c (1 + Utf8.headSize rest)
    if close == byte '\'' then character? src c.pos c
    else if isIdentStart (Utf8.headCode rest) then
      let behind ← bump? src c
      some (.ok ([.token (.punct (byte '\'') true c.place)], behind))
    else some (.error ⟨c.place, .unexpected '\''.toNat⟩)

def number? (c : Cursor) : Option Found := do
  let a ← peek? src c 0
  let b ← peek? src c 1
  let isHex := a == byte '0' && (b == byte 'x' || b == byte 'X')
  let stop ← numberFrom? src isHex (turns src) false c
  let text ← slice? src c.pos stop.pos
  some (.ok ([.token (.literal text c.place)], stop))

end Literals

/-- What the element of a text reports, and the cursor behind it. -/
def answer (c : Cursor) (p : Pos) (b : UInt8) (rest : Bytes) : Except Fault (Piece × Nat) → Found
  | .error fault => .error ⟨p, fault⟩
  | .ok (piece, n) =>
    .ok (Event.ofPiece p (b :: rest.take n) piece, c.after (b :: rest.take n))

variable {src : Bytes} {c : Cursor} {p : Pos} {b : UInt8} {rest : Bytes}

/-! ### Quotes -/

theorem slice?_element (h : c.At src (b :: rest) p) {n : Nat} (hn : n ≤ rest.length) :
    slice? src c.pos (c.after (b :: rest.take n)).pos = some (b :: rest.take n) :=
  h.slice? (n := n + 1) (Nat.succ_le_succ hn)

theorem take_drop_takeWhile (q : UInt8 → Bool) (text : Bytes) (n : Nat) :
    text.take n ++ (text.drop n).takeWhile q =
      text.take (n + ((text.drop n).takeWhile q).length) := by
  rw [List.take_add, List.append_cancel_left_eq]
  exact List.prefix_iff_eq_take.1 (List.takeWhile_prefix q)

theorem finish?_eq (h : c.At src (b :: rest) p) (fault : Fault) {extent : Option Nat}
    (hle : ∀ n, extent = some n → n ≤ rest.length) :
    finish? src c.pos p fault (extent.map fun n => c.after (b :: rest.take n)) =
      some (answer c p b rest (Piece.literalOf fault extent rest)) := by
  cases extent with
  | none => rfl
  | some n =>
    have hn := hle n rfl
    have hstop : (c.after (b :: rest.take n)).At src (rest.drop n) (p.advance (b :: rest.take n)) :=
      h.after_take (n + 1)
    have hsuffix : n + Extent.suffix (rest.drop n) ≤ rest.length := by
      have := List.takeWhile_prefix (l := rest.drop n) isWordByte |>.length_le
      rw [List.length_drop] at this
      unfold Extent.suffix
      omega
    have hcursor : (c.after (b :: rest.take n)).after ((rest.drop n).takeWhile isWordByte) =
        c.after (b :: rest.take (n + Extent.suffix (rest.drop n))) := by
      rw [← Cursor.after_append, List.cons_append, take_drop_takeWhile]
      rfl
    simp only [Option.map_some, finish?, skipWhile?_eq isWordByte hstop, Option.bind_eq_bind,
      Option.bind_some, hcursor, slice?_element h hsuffix]
    rfl

theorem after_lead {lead body : Bytes} {q : UInt8} (htext : b :: rest = lead ++ q :: body) (n : Nat) :
    ((c.after lead).next q).after (body.take n) = c.after (b :: rest.take (n + lead.length)) := by
  have htake : b :: rest.take (n + lead.length) = lead ++ q :: body.take n := by
    calc b :: rest.take (n + lead.length) = (b :: rest).take (lead.length + (n + 1)) := by
          rw [show lead.length + (n + 1) = (n + lead.length) + 1 by omega]
          rfl
      _ = lead ++ (q :: body).take (n + 1) := by rw [htext, List.take_length_add_append]
  rw [htake, Cursor.after_append, Cursor.after_cons]

section Quotes

variable {lead body : Bytes}

/-- What stands in front of the inside of a literal belongs to its extent. -/
theorem le_of_lead {q : UInt8} (htext : b :: rest = lead ++ q :: body) {extent : Option Nat}
    (hle : ∀ n, extent = some n → n ≤ body.length) :
    ∀ n, extent.map (· + lead.length) = some n → n ≤ rest.length := by
  intro n hn
  obtain ⟨m, hm, rfl⟩ := Option.map_eq_some_iff.1 hn
  have hlength := congrArg List.length htext
  simp only [List.length_cons, List.length_append] at hlength
  have := hle m hm
  omega

theorem string?_eq (lead : Bytes) (h : c.At src (b :: rest) p)
    (htext : b :: rest = lead ++ byte '"' :: body) (hline : byte '\n' ∉ lead) :
    string? src c.pos (c.after lead) = some (answer c p b rest
      (Piece.literalOf .unterminatedString ((Extent.string? body).map (· + lead.length)) rest)) := by
  have hquote : (c.after lead).At src (byte '"' :: body) (p.advance lead) := (htext ▸ h).after
  have hle : ∀ n, Extent.string? body = some n → n ≤ body.length := by
    intro n hn
    obtain ⟨x, y, rfl, -, rfl, -⟩ := Extent.string?_inv hn
    simp
  have hplace : (c.after lead).placeOf c.pos = p := (c.placeOf_after hline c.pos).trans h.place
  rw [← finish?_eq h _ (le_of_lead htext hle), Option.map_map]
  simp only [string?, hquote.bump?, Option.bind_eq_bind, Option.bind_some,
    stringFrom?_eq hquote.next hquote.next.turns, hplace, after_lead htext]
  rfl

theorem character?_eq (lead : Bytes) (h : c.At src (b :: rest) p)
    (htext : b :: rest = lead ++ byte '\'' :: body) (hline : byte '\n' ∉ lead) :
    character? src c.pos (c.after lead) = some (answer c p b rest
      (Piece.literalOf .unterminatedChar ((Extent.character? body).map (· + lead.length)) rest)) := by
  have hquote : (c.after lead).At src (byte '\'' :: body) (p.advance lead) := (htext ▸ h).after
  have hle : ∀ n, Extent.character? body = some n → n ≤ body.length := by
    intro n hn
    obtain ⟨x, y, rfl, -, rfl, -⟩ := Extent.character?_inv hn
    simp
  have hplace : (c.after lead).placeOf c.pos = p := (c.placeOf_after hline c.pos).trans h.place
  rw [← finish?_eq h _ (le_of_lead htext hle), Option.map_map]
  simp only [character?, hquote.bump?, Option.bind_eq_bind, Option.bind_some,
    characterFrom?_eq hquote.next hquote.next.turns, hplace, after_lead htext]
  rfl

theorem takeWhile_hash (text : Bytes) :
    text.takeWhile (· == byte '#') =
      List.replicate (text.takeWhile (· == byte '#')).length (byte '#') := by
  rw [List.eq_replicate_iff]
  refine ⟨rfl, ?_⟩
  intro x hx
  simpa using List.mem_takeWhile_imp hx

theorem raw?_eq (lead : Bytes) (h : c.At src (b :: rest) p) (htext : rest = lead ++ body)
    (hline : byte '\n' ∉ b :: lead) :
    raw? src c.pos (c.after (b :: lead)) =
      some (answer c p b rest (Piece.rawOf lead.length rest)) := by
  have hbody : (c.after (b :: lead)).At src body (p.advance (b :: lead)) :=
    (show c.At src ((b :: lead) ++ body) p by rw [List.cons_append, ← htext]; exact h).after
  have hplace : (c.after (b :: lead)).placeOf c.pos = p :=
    (c.placeOf_after hline c.pos).trans h.place
  -- the hashes, and the quote behind them
  have hsplit : body = body.takeWhile (· == byte '#') ++ body.dropWhile (· == byte '#') :=
    (List.takeWhile_append_dropWhile ..).symm
  have hhashes := takeWhile_hash body
  generalize hhash : body.takeWhile (· == byte '#') = hashes at hsplit hhashes
  generalize body.dropWhile (· == byte '#') = quoted at hsplit
  have hdrop : rest.drop lead.length = body := by rw [htext, List.drop_left]
  have hquoted : body.drop hashes.length = quoted := by rw [hsplit, List.drop_left]
  have hat : ((c.after (b :: lead)).after hashes).At src quoted
      ((p.advance (b :: lead)).advance hashes) := (hsplit ▸ hbody).after
  have hpos : ((c.after (b :: lead)).after hashes).pos - (c.after (b :: lead)).pos =
      hashes.length := by
    rw [Cursor.pos_after]
    omega
  simp only [raw?, skipWhile?_eq (· == byte '#') hbody, hhash, Option.bind_eq_bind,
    Option.bind_some, hat.peek?, hplace, Piece.rawOf, hdrop, hquoted, hpos, ← hhashes]
  obtain - | ⟨q, inner⟩ := quoted
  · rfl
  simp only [List.getElem?_cons_zero, Option.getD_some, List.head?_cons, Option.some.injEq,
    List.drop_succ_cons, List.drop_zero]
  by_cases hq : q = byte '"'
  · subst hq
    have hfront : b :: rest = (b :: lead ++ hashes) ++ byte '"' :: inner := by
      rw [htext, hsplit]
      simp
    have hle : ∀ n, Extent.through? (byte '"' :: hashes) inner = some n → n ≤ inner.length := by
      intro n hn
      obtain ⟨x, y, rfl, -, rfl, -⟩ := Extent.through?_inv (List.cons_ne_nil _ _) hn
      simp
    have hlead : (b :: lead ++ hashes).length = lead.length + hashes.length + 1 := by
      simp only [List.cons_append, List.length_cons, List.length_append]
    rw [← hlead, if_pos rfl, ← finish?_eq h _ (le_of_lead hfront hle), Option.map_map]
    simp only [bne_self_eq_false, Bool.false_eq_true, if_false, hat.bump?, Option.bind_some,
      rawFrom?_eq hat.next hat.next.turns]
    simp only [← Cursor.after_append, after_lead hfront]
    rfl
  · rw [if_pos (by simpa using hq), if_neg hq]
    rfl

end Quotes

/-! ### Ticks and numbers -/

/-- A byte read ahead that is not zero has been read from the text. -/
theorem getD_beq {o : Option UInt8} {x : UInt8} (hx : x ≠ 0) : (o.getD 0 == x) = (o == some x) := by
  cases o with
  | none => simpa using hx.symm
  | some y => rfl

theorem getD_bne {o : Option UInt8} {x : UInt8} (hx : x ≠ 0) : (o.getD 0 != x) = (o != some x) := by
  rw [bne, bne, getD_beq hx]

theorem tick?_eq (h : c.At src (byte '\'' :: rest) p) :
    tick? src c = some (answer c p (byte '\'') rest (Piece.tick rest)) := by
  have hrest : slice? src (c.pos + 1 : Nat) src.length = some rest := by
    have := h.next.left
    rwa [Cursor.pos_next] at this
  have hchar := character?_eq [] h rfl (by simp)
  rw [Cursor.after_nil] at hchar
  have hextent : (Extent.character? rest).map (· + ([] : Bytes).length) = Extent.character? rest := by
    simp
  rw [hextent] at hchar
  have hslash : byte '\\' ≠ 0 := by decide
  have htick : byte '\'' ≠ 0 := by decide
  simp only [tick?, h.peek?, hrest, Option.bind_eq_bind, Option.bind_some, getD_beq hslash,
    getD_beq htick, List.getElem?_cons_succ, ← List.head?_eq_getElem?, Nat.add_comm 1, hchar,
    h.bump?, h.place, Piece.tick]
  by_cases hs : rest.head? = some (byte '\\')
  · simp [hs]
  by_cases hc : rest[Utf8.headSize rest]? = some (byte '\'')
  · simp [hc]
  have hs' : (rest.head? == some (byte '\\')) = false := by simpa using hs
  have hc' : (rest[Utf8.headSize rest]? == some (byte '\'')) = false := by simpa using hc
  simp only [hs', hc', hs, hc, decide_false, Bool.or_self, Bool.false_eq_true, if_false]
  show (if isIdentStart (Utf8.headCode rest) = true then _ else _) = _
  unfold startsIdent
  split <;> rfl

theorem number?_eq (h : c.At src (b :: rest) p) (hb : isDigitByte b = true) :
    number? src c = some (answer c p b rest (.ok (.literal, Extent.number (b == byte '0' &&
      (rest.head? == some (byte 'x') || rest.head? == some (byte 'X'))) false b rest))) := by
  have hx : byte 'x' ≠ 0 := by decide
  have hX : byte 'X' ≠ 0 := by decide
  simp only [number?, h.peek?, Option.bind_eq_bind, Option.bind_some, List.getElem?_cons_succ,
    ← List.head?_eq_getElem?, List.head?_cons, Option.getD_some, getD_beq hx, getD_beq hX]
  generalize (b == byte '0' &&
    (rest.head? == some (byte 'x') || rest.head? == some (byte 'X'))) = isHex
  -- the first digit is read in the first turn
  have hloop : numberFrom? src isHex (turns src) false c =
      some (c.after (b :: rest.take (Extent.number isHex false b rest))) := by
    have hturns : rest.length < src.length := by
      have := h.length
      rw [List.length_cons] at this
      omega
    have hread := h.getElem? 0
    rw [Nat.add_zero, List.getElem?_cons_zero] at hread
    have hlast : src[(c.next b).pos - 1]? = some b := by simpa using hread
    have hword : isWordByte b = true := by simp [isWordByte, hb]
    rw [turns, numberFrom?, h.eof, List.isEmpty_cons, if_neg Bool.false_ne_true]
    simp only [h.peek?, Option.bind_eq_bind, Option.bind_some, List.getElem?_cons_zero,
      Option.getD_some, hword, if_true, h.bump?]
    exact numberFrom?_eq h.next hturns (by simp) hlast
  rw [hloop, Option.bind_some, slice?_element h (Extent.number_le ..), Option.bind_some, h.place]
  rfl

end GetterRename.Checked
