import GetterRename.Proofs.Bounds.Words

/-!
# Lexical elements, with a cursor

Reading one lexical element: a look at its first bytes, the loop to its end, and the slices of the
text that its tokens hold.  Every position that is read was looked at before, so no read fails, and
the outcome is that of reading the element from the front of the text.

* `Checked.lineComment?_eq`, `Checked.blockComment?_eq` — comments;
* `Checked.element?` — one lexical element;
* `Checked.element?_eq` — what it gives.
-/

namespace GetterRename.Checked

section Elements

variable (src : Bytes)

def lineComment? (c : Cursor) : Option Found := do
  let stop ← skipWhile? src (· != byte '\n') c
  let text ← slice? src c.pos stop.pos
  let text := Bytes.dropTail "\r" text
  if Bytes.startsWith text "//!"
      || (Bytes.startsWith text "///" && !Bytes.startsWith text "////") then
    let doc ← slice? text 3 text.length
    some (.ok ([.token (.doc doc c.place)], stop))
  else some (.ok ([], stop))

/-- The documentation tokens of the lines of a block comment at `p`. -/
def docTokens (p : Pos) (lines : List Bytes) : List Event :=
  lines.mapIdx fun i line =>
    if i = 0 then .token (.doc (Bytes.dropTail "\r" line) p)
    else .token (.doc (Piece.starredLine line) ⟨p.line + i, 0⟩)

/-- Whether the block comment documents what follows it. -/
def isBlockDoc (text : Bytes) : Bool :=
  Bytes.startsWith text "/*!" ||
    (Bytes.startsWith text "/**" && !Bytes.startsWith text "/***" && text != Bytes.ofString "/**/")

def blockComment? (c : Cursor) : Option Found := do
  match ← commentFrom? src (turns src) 0 c with
  | none => some (.error ⟨c.place, .unterminatedComment⟩)
  | some stop =>
    let text ← slice? src c.pos stop.pos
    if isBlockDoc text then
      let content ← slice? text 3 ((text.length : Int) - 2)
      some (.ok (docTokens c.place (Bytes.splitOn (byte '\n') content), stop))
    else some (.ok ([], stop))

def element? (c : Cursor) : Option Found := do
  let a ← peek? src c 0
  let b ← peek? src c 1
  if a == byte '/' && b == byte '/' then lineComment? src c
  else if a == byte '/' && b == byte '*' then blockComment? src c
  else
    match Delimiter.opened? a, Delimiter.closed? a with
    | some d, _ => do
      let behind ← bump? src c
      some (.ok ([.opening d c.place], behind))
    | none, some d => do
      let behind ← bump? src c
      some (.ok ([.closing d c.place], behind))
    | none, none =>
      if a == byte '"' then string? src c.pos c
      else if a == byte '\'' then tick? src c
      else if isDigitByte a then number? src c
      else if Piece.punctuation.contains a then do
        let behind ← bump? src c
        let next ← peek? src behind 0
        let joint := Piece.punctuation.contains next && !eof src behind
        some (.ok ([.token (.punct a joint c.place)], behind))
      else word? src c

end Elements

variable {src : Bytes} {c : Cursor} {p : Pos} {b : UInt8} {rest : Bytes}

/-! ### Comments -/

theorem length_le_of_startsWith {text head : Bytes} (h : Bytes.startsWith text head = true) :
    head.length ≤ text.length := (List.isPrefixOf_iff_prefix.1 h).length_le

theorem lineComment?_eq (h : c.At src (byte '/' :: rest) p) :
    lineComment? src c = some (answer c p (byte '/') rest
      (.ok (.lineComment, (rest.takeWhile (· != byte '\n')).length))) := by
  have hslash : (byte '/' != byte '\n') = true := by decide
  have hline := take_length_takeWhile (· != byte '\n') rest
  have hle := (List.takeWhile_prefix (l := rest) (· != byte '\n')).length_le
  have hslice := slice?_element h hle
  rw [hline] at hslice
  simp only [lineComment?, skipWhile?_eq _ h, List.takeWhile_cons, hslash, if_true, hslice, answer,
    hline, Event.ofPiece, Piece.lineDoc?, h.place, Option.bind_eq_bind, Option.bind_some]
  generalize Bytes.dropTail "\r" (byte '/' :: rest.takeWhile (· != byte '\n')) = text
  split
  · -- the marker is three bytes long
    rename_i hdoc
    have hmarker : 3 ≤ text.length := by
      rw [Bool.or_eq_true, Bool.and_eq_true] at hdoc
      rcases hdoc with hdoc | ⟨hdoc, -⟩
      · exact length_le_of_startsWith hdoc
      · exact length_le_of_startsWith hdoc
    have hrest : slice? text 3 text.length = some (text.drop 3) := slice?_rest text hmarker
    rw [hrest]
    rfl
  · rfl

theorem two_le_of_comment? {depth : Nat} {text : Bytes} {n : Nat}
    (h : Extent.comment? (depth + 1) text = some n) : 2 ≤ n := by
  generalize hdepth : depth + 1 = opened at h
  fun_induction Extent.comment? opened text generalizing depth n with
  | case1 => omega
  | case2 => cases h
  | case3 => cases h
  | case4 depth' a d rest hopen ih =>
    obtain ⟨m, -, rfl⟩ := Option.map_eq_some_iff.1 h
    omega
  | case5 depth' a d rest hopen hclose ih =>
    obtain ⟨m, -, rfl⟩ := Option.map_eq_some_iff.1 h
    omega
  | case6 depth' a d rest hopen hclose ih =>
    obtain ⟨m, hm, rfl⟩ := Option.map_eq_some_iff.1 h
    have := ih rfl hm
    omega

theorem eq_of_comment?_two {a d : UInt8} (h : Extent.comment? 1 (a :: d :: rest) = some 2) :
    a = byte '*' ∧ d = byte '/' := by
  rw [Extent.comment?] at h
  split at h
  · obtain ⟨m, hm, hsum⟩ := Option.map_eq_some_iff.1 h
    have := two_le_of_comment? hm
    omega
  split at h
  · rename_i hclose
    simpa using hclose
  · obtain ⟨m, hm, hsum⟩ := Option.map_eq_some_iff.1 h
    have := two_le_of_comment? hm
    omega

/-- A comment with documentation is longer than its markers. -/
theorem five_le_of_isBlockDoc {n : Nat} (hn : Extent.comment? 1 rest = some n)
    (h : isBlockDoc (byte '/' :: byte '*' :: rest.take n) = true) :
    5 ≤ (byte '/' :: byte '*' :: rest.take n).length := by
  have htwo := two_le_of_comment? hn
  have hle : n ≤ rest.length := by
    obtain ⟨body, z, rfl, -, rfl, -⟩ := Extent.comment?_inv hn
    simp
  rw [List.length_cons, List.length_cons, List.length_take, Nat.min_eq_left hle]
  by_contra hlt
  obtain rfl : n = 2 := by omega
  obtain - | ⟨a, - | ⟨d, rest⟩⟩ := rest
  · simp at hle
  · simp at hle
  obtain ⟨rfl, rfl⟩ := eq_of_comment?_two hn
  have hfour : isBlockDoc [byte '/', byte '*', byte '*', byte '/'] = false := by decide
  exact absurd h (by simpa using hfour)

theorem blockDoc_eq (text : Bytes) : Piece.blockDoc text =
    if isBlockDoc text then
      match Bytes.splitOn (byte '\n') ((text.drop 3).take (text.length - 5)) with
      | [] => []
      | first :: lines => Bytes.dropTail "\r" first :: lines.map Piece.starredLine
    else [] := rfl

theorem docTokens_eq (p : Pos) (first : Bytes) (lines : List Bytes) :
    docTokens p (first :: lines) =
      Event.ofBlockDoc p (Bytes.dropTail "\r" first :: lines.map Piece.starredLine) := by
  simp only [docTokens, Event.ofBlockDoc, List.mapIdx_cons, if_true, Nat.succ_ne_zero, if_false,
    mapIdx_map]

theorem blockComment?_eq (h : c.At src (byte '/' :: byte '*' :: rest) p) :
    blockComment? src c = some (answer c p (byte '/') (byte '*' :: rest)
      (match Extent.comment? 1 rest with
        | some n => .ok (.blockComment, n + 1)
        | none => .error .unterminatedComment)) := by
  have hinner : (c.after [byte '/', byte '*']).At src rest (p.advance [byte '/', byte '*']) :=
    (show c.At src ([byte '/', byte '*'] ++ rest) p from h).after
  have hbumps : bumps? src 2 c = some (c.after [byte '/', byte '*']) :=
    (show c.At src ([byte '/', byte '*'] ++ rest) p from h).bumps?
  -- the first turn of the loop opens the comment
  have hloop : commentFrom? src (turns src) 0 c = some ((Extent.comment? 1 rest).map fun n =>
      c.after (byte '/' :: byte '*' :: rest.take n)) := by
    have hturns : rest.length < src.length := by
      have := h.length
      simp only [List.length_cons] at this
      omega
    rw [turns, commentFrom?, h.eof, List.isEmpty_cons, if_neg Bool.false_ne_true]
    simp only [h.peek?, Option.bind_eq_bind, Option.bind_some, List.getElem?_cons_zero,
      List.getElem?_cons_succ, Option.getD_some, decide_true, Bool.and_self, if_true, hbumps,
      Option.map_some, Nat.succ_ne_zero, if_false]
    exact commentFrom?_eq hinner hturns
  simp only [blockComment?, hloop, Option.bind_eq_bind, Option.bind_some]
  cases hcomment : Extent.comment? 1 rest with
  | none => rw [Option.map_none, h.place]; rfl
  | some n =>
    have hle : n + 1 ≤ (byte '*' :: rest).length := by
      obtain ⟨body, z, rfl, -, rfl, -⟩ := Extent.comment?_inv hcomment
      simp
    have hslice := slice?_element h hle
    rw [List.take_succ_cons] at hslice
    simp only [Option.map_some, hslice, Option.bind_some, answer, h.place, List.take_succ_cons,
      Event.ofPiece, blockDoc_eq]
    by_cases hdoc : isBlockDoc (byte '/' :: byte '*' :: rest.take n) = true
    · have hfive := five_le_of_isBlockDoc hcomment hdoc
      generalize byte '/' :: byte '*' :: rest.take n = text at hdoc hfive
      have hcontent : slice? text 3 ((text.length : Int) - 2) =
          some ((text.drop 3).take (text.length - 5)) := by
        have hint : (text.length : Int) - 2 = (text.length - 2 : Nat) := by omega
        have hthree : (3 : Int) = (3 : Nat) := rfl
        rw [hint, hthree, slice?_natCast text (by omega) (by omega), List.drop_take]
        rfl
      rw [if_pos hdoc, if_pos hdoc, hcontent, Option.bind_some]
      cases Bytes.splitOn (byte '\n') ((text.drop 3).take (text.length - 5)) with
      | nil => rfl
      | cons first lines => rw [docTokens_eq]
    · rw [if_neg hdoc, if_neg hdoc]
      rfl

/-! ### All elements -/

/-- **One element.**  No read of its bytes fails and no loop over them uses up its turns; what it
reports and where the cursor stands behind it is told by the front of the text. -/
theorem element?_eq (h : c.At src (b :: rest) p) (hb : Piece.isSpace b = false) :
    element? src c = some (answer c p b rest (Piece.at? b rest)) := by
  have hline : b ≠ byte '\n' := by
    rintro rfl
    exact absurd hb (by decide)
  have hslash : byte '/' ≠ 0 := by decide
  have hstar : byte '*' ≠ 0 := by decide
  have hnil : ∀ extent : Option Nat, extent.map (· + ([] : Bytes).length) = extent := by
    intro extent
    simp
  simp only [element?, h.peek?, Option.bind_eq_bind, Option.bind_some, List.getElem?_cons_succ,
    ← List.head?_eq_getElem?, List.head?_cons, Option.getD_some, getD_beq hslash, getD_beq hstar,
    h.bump?, h.next.peek?, h.next.eof, h.place, Piece.at?, hb, Bool.false_eq_true, if_false]
  split
  · rename_i hcomment
    obtain ⟨rfl, hhead⟩ : b = byte '/' ∧ rest.head? = some (byte '/') := by simpa using hcomment
    exact lineComment?_eq h
  split
  · rename_i hcomment
    obtain ⟨rfl, hhead⟩ : b = byte '/' ∧ rest.head? = some (byte '*') := by simpa using hcomment
    obtain ⟨rest, rfl⟩ := List.head?_eq_some_iff.1 hhead
    exact blockComment?_eq h
  cases Delimiter.opened? b with
  | some d => rfl
  | none =>
    cases Delimiter.closed? b with
    | some d => rfl
    | none =>
      simp only
      split
      · rename_i hquote
        obtain rfl : b = byte '"' := by simpa using hquote
        exact (string?_eq [] h rfl (by simp)).trans (by rw [hnil])
      split
      · rename_i htick
        obtain rfl : b = byte '\'' := by simpa using htick
        exact tick?_eq h
      split
      · rename_i hdigit
        exact number?_eq h hdigit
      split
      · cases rest with
        | nil => rfl
        | cons d rest => simp [answer, Event.ofPiece]
      · exact word?_eq h

end GetterRename.Checked
