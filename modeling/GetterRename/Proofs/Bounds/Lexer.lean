import GetterRename.Proofs.Bounds.Elements
import GetterRename.Proofs.Source.FileHead
import GetterRename.Proofs.Text.Split

/-!
# Reading a file, with a cursor

The lexer reads one event after the other.  A documentation comment of several lines gives one token
for each of them; those not reported yet are kept.  Every turn of its loop drops one of these or
moves the cursor on, so what is ahead gets shorter until the end of the text.

* `Checked.scan?`, `Checked.scan?_spec` — one event, and what it takes from what is ahead;
* `Checked.lex?`, `Checked.lex?_eq` — the token trees of a file;
* `Checked.Lexes.advances` — the scans that reading a file goes through.
-/

namespace GetterRename.Checked

/-- Where a lexer stands, and the events it has read but not reported. -/
structure Lexer where
  cursor : Cursor
  pending : List Event
  deriving Repr

/-- An open group with the tokens read since. -/
structure Level where
  delim : Delimiter
  pos : Pos
  tokens : List Token
  deriving Repr

/-- The outcome of one scan: the event, nothing at the end of the text. -/
abbrev Scanned := Except SyntaxError (Option Event × Lexer)

section Loops

variable (src : Bytes)

def first? (events : List Event) (c : Cursor) : Option Scanned := do
  let event ← get? events 0
  let pending ← slice? events 1 events.length
  return .ok (some event, ⟨c, pending⟩)

def scanFrom? : Nat → Cursor → Option Scanned
  | 0, _ => none
  | n + 1, c => do
    let c ← skipWhile? src Piece.isSpace c
    if eof src c then some (.ok (none, ⟨c, []⟩))
    else
      match ← element? src c with
      | .error e => some (.error e)
      | .ok (events, c) => if events.length = 0 then scanFrom? n c else first? events c

def scan? (l : Lexer) : Option Scanned :=
  if 0 < l.pending.length then first? l.pending l.cursor else scanFrom? src (turns src) l.cursor

def preamble? : Option Cursor := do
  let c : Cursor := if Bytes.startsWith src Event.byteOrderMark then ⟨3, 1, 3⟩ else ⟨0, 1, 0⟩
  let a ← peek? src c 0
  let b ← peek? src c 1
  let d ← peek? src c 2
  if a == byte '#' && b == byte '!' && d != byte '[' then skipWhile? src (· != byte '\n') c
  else some c

/-- The loop over the events, with the groups that are open: the outermost level is first. -/
def lexFrom? : Nat → Lexer → List Level → Option (Except SyntaxError (List Token))
  | 0, _, _ => none
  | n + 1, l, stack => do
    match ← scan? src l with
    | .error e => some (.error e)
    | .ok (event, l) =>
      let top ← top? stack
      match event with
      | none =>
        if 1 < stack.length then some (.error ⟨top.pos, .unclosed top.delim⟩)
        else some (.ok top.tokens)
      | some (.opening d p) => lexFrom? n l (stack ++ [⟨d, p, []⟩])
      | some (.closing d p) =>
        if stack.length = 1 || top.delim != d then some (.error ⟨p, .unopened d⟩)
        else
          let below ← pop? stack
          let group := Token.group top.delim top.tokens top.pos
          let stack ← onTop? (fun parent => { parent with tokens := parent.tokens ++ [group] }) below
          lexFrom? n l stack
      | some (.token t) =>
        let stack ← onTop? (fun top => { top with tokens := top.tokens ++ [t] }) stack
        lexFrom? n l stack

def lex? : Option (Except SyntaxError (List Token)) := do
  let c ← preamble? src
  lexFrom? src (turns src) ⟨c, []⟩ [⟨.paren, ⟨0, 0⟩, []⟩]

end Loops

variable {src : Bytes} {c : Cursor} {p : Pos}

/-! ### One event -/

theorem length_splitOn_le (sep : UInt8) (text : Bytes) :
    (Bytes.splitOn sep text).length ≤ text.length + 1 := by
  have hweight := Bytes.weight_splitOn sep text
  have hle : ∀ parts : List Bytes, parts.length ≤ Bytes.weight parts := by
    intro parts
    induction parts with
    | nil => exact Nat.le_refl 0
    | cons part parts ih =>
      rw [Bytes.weight_cons, List.length_cons]
      omega
  have := hle (Bytes.splitOn sep text)
  omega

/-- An element does not report more events than it has bytes. -/
theorem length_ofPiece_le (p : Pos) (b : UInt8) (rest : Bytes) (piece : Piece) :
    (Event.ofPiece p (b :: rest) piece).length ≤ (b :: rest).length := by
  have hpos : 1 ≤ (b :: rest).length := Nat.le_add_left 1 _
  generalize b :: rest = text at hpos
  cases piece with
  | blank => exact Nat.zero_le _
  | lineComment =>
    rw [Event.ofPiece]
    cases Piece.lineDoc? text with
    | none => exact Nat.zero_le _
    | some doc => exact hpos
  | blockComment =>
    rw [Event.ofPiece, blockDoc_eq]
    split
    · have hlines := length_splitOn_le (byte '\n') ((text.drop 3).take (text.length - 5))
      rw [List.length_take] at hlines
      split
      · exact Nat.zero_le _
      · rename_i first lines hsplit
        rw [hsplit, List.length_cons] at hlines
        simp only [Event.ofBlockDoc, List.length_cons, List.length_mapIdx, List.length_map]
        omega
    · exact Nat.zero_le _
  | opening | closing | ident | literal => exact hpos
  | punct joint =>
    rw [Event.ofPiece, List.length_map]
    cases text with
    | nil => exact Nat.zero_le _
    | cons c text => exact hpos

theorem scan_blanks (p : Pos) (text : Bytes) :
    Event.scan p text =
      Event.scan (p.advance (text.takeWhile Piece.isSpace)) (text.dropWhile Piece.isSpace) := by
  induction text generalizing p with
  | nil => rfl
  | cons b rest ih =>
    by_cases hb : Piece.isSpace b = true
    · have hat : Piece.at? b rest = .ok (.blank, 0) := if_pos hb
      rw [List.takeWhile_cons_of_pos hb, List.dropWhile_cons_of_pos hb, Pos.advance_cons, ← ih,
        Event.scan_cons, hat]
      rfl
    · rw [List.takeWhile_cons_of_neg hb, List.dropWhile_cons_of_neg hb, Pos.advance_nil]

/-- What one scan tells about the events in front of the lexer and the fault behind them, and what
it leaves ahead: the first of the pending events is gone, or the cursor has moved on. -/
def Scanned.Tells (src : Bytes) (l : Lexer) (text : Bytes) (p : Pos) : Scanned → Prop
  | .error e => l.pending = [] ∧ Event.scan p text = ([], some e)
  | .ok (none, l') => l.pending = [] ∧ Event.scan p text = ([], none) ∧ l'.cursor.pos = src.length
  | .ok (some e, l') => ∃ text' p', l'.cursor.At src text' p' ∧
      l.pending ++ (Event.scan p text).1 = e :: (l'.pending ++ (Event.scan p' text').1) ∧
      (Event.scan p text).2 = (Event.scan p' text').2 ∧
      (l.pending = e :: l'.pending ∧ l'.cursor = l.cursor ∧ text' = text ∨
        l.pending = [] ∧ l.cursor.pos < l'.cursor.pos ∧
          l'.pending.length + text'.length < text.length)

theorem first?_cons (e : Event) (es : List Event) (c : Cursor) :
    first? (e :: es) c = some (.ok (some e, ⟨c, es⟩)) := by
  have hrest : slice? (e :: es) 1 (e :: es).length = some es := slice?_rest (e :: es) (by simp)
  simp only [first?, get?_zero, List.head?_cons, hrest, Option.bind_eq_bind, Option.bind_some]
  rfl

/-- What is told further on in the text, with no event in between. -/
theorem Scanned.Tells.of_later {text text' : Bytes} {c' : Cursor} {p' : Pos} {found : Scanned}
    (h : Tells src ⟨c', []⟩ text' p' found) (hscan : Event.scan p text = Event.scan p' text')
    (hpos : c.pos ≤ c'.pos) (hlen : text'.length ≤ text.length) :
    Tells src ⟨c, []⟩ text p found := by
  rcases found with e | ⟨- | e, l⟩
  · exact ⟨rfl, hscan.trans h.2⟩
  · exact ⟨rfl, hscan.trans h.2.1, h.2.2⟩
  · obtain ⟨text'', p'', hat, hevents, hfault, hprogress⟩ := h
    refine ⟨text'', p'', hat, ?_, ?_, ?_⟩
    · rw [hscan]
      exact hevents
    · rw [hscan]
      exact hfault
    · right
      obtain ⟨hpending, -, -⟩ | ⟨-, hmoved, hshorter⟩ := hprogress
      · exact absurd hpending (List.cons_ne_nil _ _).symm
      · refine ⟨rfl, ?_, ?_⟩
        · exact Nat.lt_of_le_of_lt hpos hmoved
        · exact Nat.lt_of_lt_of_le hshorter hlen

theorem Scanned.tells_of_piece {b : UInt8} {rest : Bytes} {piece : Piece} {k : Nat} {e : Event}
    {events : List Event} (h : c.At src (b :: rest) p)
    (hpiece : Piece.at? b rest = .ok (piece, k))
    (hevents : Event.ofPiece p (b :: rest.take k) piece = e :: events) :
    Tells src ⟨c, []⟩ (b :: rest) p (.ok (some e, ⟨c.after (b :: rest.take k), events⟩)) := by
  have hscan := Event.scan_cons p b rest
  have hbehind := h.after_take (k + 1)
  have hcount := length_ofPiece_le p b (rest.take k) piece
  rw [hpiece] at hscan
  simp only [hevents] at hscan hcount
  simp only [List.take_succ_cons, List.drop_succ_cons] at hbehind
  refine ⟨_, _, hbehind, ?_, ?_, .inr ⟨rfl, ?_, ?_⟩⟩
  · rw [List.nil_append, hscan]
    rfl
  · rw [hscan]
  · show c.pos < (c.after (b :: rest.take k)).pos
    rw [Cursor.pos_after, List.length_cons]
    omega
  · simp only [List.length_cons, List.length_take, List.length_drop] at hcount ⊢
    omega

theorem scanFrom?_spec {text : Bytes} {n : Nat} (h : c.At src text p) (hn : text.length < n) :
    ∃ found, scanFrom? src n c = some found ∧ Scanned.Tells src ⟨c, []⟩ text p found := by
  induction n generalizing c text p with
  | zero => omega
  | succ n ih =>
    -- the blanks in front of the next element
    have hsplit := List.takeWhile_append_dropWhile (p := Piece.isSpace) (l := text)
    have hblanks := scan_blanks p text
    have hhead := Piece.head?_dropWhile_any Piece.isSpace text
    simp only [scanFrom?, skipWhile?_eq _ h, Option.bind_eq_bind, Option.bind_some]
    generalize text.takeWhile Piece.isSpace = blanks at *
    generalize text.dropWhile Piece.isSpace = rest at *
    have hat : (c.after blanks).At src rest (p.advance blanks) := (hsplit ▸ h).after
    have hpos : c.pos ≤ (c.after blanks).pos := by
      rw [Cursor.pos_after]
      omega
    have hlen : rest.length ≤ text.length := by
      rw [← hsplit, List.length_append]
      omega
    cases rest with
    | nil =>
      have hend := hat.length
      rw [hat.eof]
      exact ⟨_, rfl, rfl, by rw [hblanks, Event.scan], by simpa using hend.symm⟩
    | cons b rest =>
      have hb : Piece.isSpace b = false := by simpa using hhead
      rw [hat.eof, List.isEmpty_cons, if_neg Bool.false_ne_true, element?_eq hat hb, Option.bind_some]
      have hscan := Event.scan_cons (p.advance blanks) b rest
      cases hpiece : Piece.at? b rest with
      | error fault =>
        rw [hpiece] at hscan
        exact ⟨_, rfl, rfl, hblanks.trans hscan⟩
      | ok found =>
        obtain ⟨piece, k⟩ := found
        simp only [answer]
        cases hevents : Event.ofPiece (p.advance blanks) (b :: rest.take k) piece with
        | nil =>
          -- a blank or a comment without documentation
          have hbehind := hat.after_take (k + 1)
          simp only [List.take_succ_cons, List.drop_succ_cons] at hbehind
          simp only [hpiece, hevents] at hscan
          rw [List.length_cons] at hlen
          obtain ⟨found, hfound, htells⟩ := ih hbehind (by rw [List.length_drop]; omega)
          refine ⟨found, hfound, htells.of_later (hblanks.trans hscan) ?_ ?_⟩
          · rw [Cursor.pos_after]
            omega
          · rw [List.length_drop]
            omega
        | cons e events =>
          have htells := Scanned.tells_of_piece hat hpiece hevents
          exact ⟨_, first?_cons e events _, htells.of_later hblanks hpos hlen⟩

/-- **One scan.**  From any place in the text a scan has an outcome: the fault of the element there,
the end of the text, or an event; then a pending event is gone or the cursor has moved on, and it
still stands in the text. -/
theorem scan?_spec {l : Lexer} {text : Bytes} (h : l.cursor.At src text p) :
    ∃ found, scan? src l = some found ∧ Scanned.Tells src l text p found := by
  obtain ⟨c, - | ⟨e, pending⟩⟩ := l
  · exact scanFrom?_spec h h.turns
  · exact ⟨_, first?_cons e pending c, text, p, h, rfl, rfl, .inl ⟨rfl, rfl, rfl⟩⟩

/-! ### A whole file -/

theorem startsWith_shebang (text : Bytes) :
    Bytes.startsWith text "#!" = (text[0]? == some (byte '#') && text[1]? == some (byte '!')) := by
  have hmark : Bytes.ofString "#!" = [byte '#', byte '!'] := by decide
  rw [Bytes.startsWith, hmark]
  obtain - | ⟨a, - | ⟨b, rest⟩⟩ := text
  · rfl
  · simp [List.isPrefixOf]
  · simp [List.isPrefixOf, Bool.beq_comm (a := a), Bool.beq_comm (a := b)]

/-- The cursor behind a byte order mark. -/
theorem exists_at_mark (src : Bytes) :
    (if Bytes.startsWith src Event.byteOrderMark then (⟨3, 1, 3⟩ : Cursor) else ⟨0, 1, 0⟩).At src
      (Bytes.dropHead Event.byteOrderMark src) ⟨1, 0⟩ := by
  unfold Bytes.dropHead Bytes.after?
  split
  · rename_i hmark
    exact ⟨length_le_of_startsWith hmark, rfl, rfl, rfl⟩
  · exact ⟨Nat.zero_le _, rfl, rfl, rfl⟩

/-- The head of a file: behind it the cursor stands where scanning starts. -/
theorem preamble?_spec (src : Bytes) :
    ∃ c text p, preamble? src = some c ∧ c.At src text p ∧
      Event.ofSource src = Event.scan p text := by
  have hat := exists_at_mark src
  have hhash : byte '#' ≠ 0 := by decide
  have hbang : byte '!' ≠ 0 := by decide
  have hbracket : byte '[' ≠ 0 := by decide
  unfold preamble? Event.ofSource Event.shebang
  generalize (if Bytes.startsWith src Event.byteOrderMark then (⟨3, 1, 3⟩ : Cursor)
    else ⟨0, 1, 0⟩) = c at *
  generalize Bytes.dropHead Event.byteOrderMark src = text at *
  simp only [hat.peek?, Option.bind_eq_bind, Option.bind_some, getD_beq hhash, getD_beq hbang,
    getD_bne hbracket, startsWith_shebang]
  split
  · obtain ⟨line, rest, rfl, hline, hnewline, -⟩ := Event.exists_takeWhile text
    refine ⟨_, rest, (⟨1, 0⟩ : Pos).advance line, skipWhile?_eq _ hat, ?_, ?_⟩
    · rw [hline]
      exact hat.after
    · rw [hline, List.drop_left, Pos.advance_of_no_newline _ hnewline, Nat.zero_add]
  · exact ⟨c, text, _, rfl, hat, rfl⟩

def levels : List Frame → List Token → List Level
  | [], tokens => [⟨.paren, ⟨0, 0⟩, tokens.reverse⟩]
  | frame :: frames, tokens =>
    levels frames frame.before ++ [⟨frame.delim, frame.pos, tokens.reverse⟩]

/-- The outcome of a file by the groups that are open at its end or its fault. -/
def outcome (fault : Option SyntaxError) :
    Except SyntaxError (List Frame × List Token) → Except SyntaxError (List Token)
  | .error e => .error e
  | .ok (frames, tokens) =>
    match fault, frames with
    | some e, _ => .error e
    | none, [] => .ok tokens.reverse
    | none, frame :: _ => .error ⟨frame.pos, .unclosed frame.delim⟩

theorem ofEvents_eq (events : List Event) (fault : Option SyntaxError) :
    Token.ofEvents events fault = outcome fault (Token.nest events [] []) := by
  unfold Token.ofEvents outcome
  rfl

theorem top?_levels (frames : List Frame) (tokens : List Token) :
    ∃ level, top? (levels frames tokens) = some level ∧ level.tokens = tokens.reverse ∧
      ∀ frame rest, frames = frame :: rest → level.delim = frame.delim ∧ level.pos = frame.pos := by
  cases frames with
  | nil => exact ⟨⟨.paren, ⟨0, 0⟩, tokens.reverse⟩, rfl, rfl, by simp⟩
  | cons frame frames =>
    refine ⟨_, top?_append _ _, rfl, ?_⟩
    rintro _ _ ⟨⟩
    exact ⟨rfl, rfl⟩

@[simp] theorem length_levels (frames : List Frame) (tokens : List Token) :
    (levels frames tokens).length = frames.length + 1 := by
  induction frames generalizing tokens with
  | nil => rfl
  | cons frame frames ih => rw [levels, List.length_append, ih]; rfl

theorem onTop?_levels (frames : List Frame) (tokens : List Token) (t : Token) :
    onTop? (fun top : Level => { top with tokens := top.tokens ++ [t] }) (levels frames tokens) =
      some (levels frames (t :: tokens)) := by
  cases frames with
  | nil => simp [levels, onTop?, top?, get?]
  | cons frame frames => simp [levels]

/-- The turns that are left suffice for the events that are left. -/
theorem lexFrom?_eq {n : Nat} {l : Lexer} {text : Bytes} {frames : List Frame} {tokens : List Token}
    (h : l.cursor.At src text p) (hn : l.pending.length + text.length < n) :
    lexFrom? src n l (levels frames tokens) = some (outcome (Event.scan p text).2
      (Token.nest (l.pending ++ (Event.scan p text).1) frames tokens)) := by
  induction n generalizing l text p frames tokens with
  | zero => omega
  | succ n ih =>
    obtain ⟨found, hfound, htells⟩ := scan?_spec h
    obtain ⟨level, htop, htokens, hlevel⟩ := top?_levels frames tokens
    simp only [lexFrom?, hfound, htop, length_levels, Option.bind_eq_bind, Option.bind_some]
    rcases found with e | ⟨- | e, l'⟩
    · obtain ⟨hpending, hscan⟩ := htells
      rw [hpending, hscan]
      rfl
    · obtain ⟨hpending, hscan, -⟩ := htells
      rw [hpending, hscan]
      cases frames with
      | nil =>
        rw [htokens]
        rfl
      | cons frame frames =>
        obtain ⟨hdelim, hpos⟩ := hlevel frame frames rfl
        rw [hdelim, hpos]
        rfl
    · obtain ⟨text', p', hat, hevents, hfault, hprogress⟩ := htells
      have hleft : l'.pending.length + text'.length < n := by
        obtain ⟨hpending, -, rfl⟩ | ⟨hpending, -, hshorter⟩ := hprogress
        · rw [hpending, List.length_cons] at hn
          omega
        · omega
      rw [hevents, hfault]
      cases e with
      | token t =>
        simp only [onTop?_levels, Option.bind_some]
        exact ih hat hleft
      | opening d q => exact @ih p' l' text' (⟨d, q, tokens⟩ :: frames) [] hat hleft
      | closing d q =>
        cases frames with
        | nil => rfl
        | cons frame frames =>
          obtain ⟨hdelim, hpos⟩ := hlevel frame frames rfl
          have hlength : (decide ((frame :: frames).length + 1 = 1)) = false := by simp
          have hne : (frame.delim != d) = !decide (frame.delim = d) := by
            rw [bne, beq_eq_decide]
          simp only [levels, pop?_append, Option.bind_some, htokens, hdelim, hpos, onTop?_levels,
            hlength, Bool.false_or, hne, Token.nest]
          by_cases hmatch : frame.delim = d
          · simp only [hmatch, decide_true, Bool.not_true, Bool.false_eq_true, if_false, if_true]
            exact ih hat hleft
          · simp only [hmatch, decide_false, Bool.not_false, if_true, if_false]
            rfl

/-- **Reading a file.**  The loop over the events ends, no read of the text, of the pending tokens
or of the open groups is out of range, and the outcome is that of nesting the events. -/
theorem lex?_eq (src : Bytes) : lex? src = some (Token.lex src) := by
  obtain ⟨c, text, p, hc, hat, hsource⟩ := preamble?_spec src
  have hleft : ([] : List Event).length + text.length < turns src := by
    have := hat.turns
    simpa using this
  rw [lex?, hc, Option.bind_eq_bind, Option.bind_some, Token.lex, hsource]
  simp only [ofEvents_eq]
  exact @lexFrom?_eq src p _ ⟨c, []⟩ text [] [] hat hleft

/-! ### The scans of a file -/

/-- The lexers that reading a file goes through: the first stands behind the head of the file, and
a scan that brings an event leaves the next. -/
inductive Lexes (src : Bytes) : Lexer → Prop
  | head {c : Cursor} : preamble? src = some c → Lexes src ⟨c, []⟩
  | scan {l l' : Lexer} {e : Event} :
    Lexes src l → scan? src l = some (.ok (some e, l')) → Lexes src l'

/-- The scan of a lexer ends with a fault or at the end of the text, or it brings an event. Then the
event was pending, or bytes up to the end of the text have been consumed. -/
inductive Advances (src : Bytes) (l : Lexer) : Prop
  | fault {e : SyntaxError} : scan? src l = some (.error e) → Advances src l
  | finished {l' : Lexer} : scan? src l = some (.ok (none, l')) → l'.cursor.pos = src.length →
    Advances src l
  | drained {e : Event} {l' : Lexer} : scan? src l = some (.ok (some e, l')) →
    l.pending = e :: l'.pending → l'.cursor = l.cursor → Advances src l
  | consumed {e : Event} {l' : Lexer} : scan? src l = some (.ok (some e, l')) →
    l.cursor.pos < l'.cursor.pos → l'.cursor.pos ≤ src.length → Advances src l

theorem Lexes.exists_at {l : Lexer} (h : Lexes src l) : ∃ text p, l.cursor.At src text p := by
  induction h with
  | head hc =>
    obtain ⟨c, text, p, hc', hat, -⟩ := preamble?_spec src
    obtain rfl := Option.some.inj (hc.symm.trans hc')
    exact ⟨text, p, hat⟩
  | scan _ hscan ih =>
    obtain ⟨text, p, hat⟩ := ih
    obtain ⟨found, hfound, htells⟩ := scan?_spec hat
    obtain rfl := Option.some.inj (hscan.symm.trans hfound)
    obtain ⟨text', p', hat', -⟩ := htells
    exact ⟨text', p', hat'⟩

/-- **The scans of a file.**  None of them comes past the end of the text, and each one gets on. -/
theorem Lexes.advances {l : Lexer} (h : Lexes src l) :
    l.cursor.pos ≤ src.length ∧ Advances src l := by
  obtain ⟨text, p, hat⟩ := h.exists_at
  refine ⟨hat.inside, ?_⟩
  obtain ⟨found, hfound, htells⟩ := scan?_spec hat
  rcases found with e | ⟨- | e, l'⟩
  · exact .fault hfound
  · exact .finished hfound htells.2.2
  · obtain ⟨text', p', hat', -, -, hprogress⟩ := htells
    obtain ⟨hpending, hcursor, -⟩ | ⟨-, hmoved, -⟩ := hprogress
    · exact .drained hfound hpending hcursor
    · exact .consumed hfound hmoved hat'.inside

end GetterRename.Checked
