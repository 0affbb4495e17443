import GetterRename.Proofs.Source.FileHead
import GetterRename.Proofs.Source.Lines
import GetterRename.Proofs.Source.Sites
import GetterRename.Proofs.Source.Spelling

/-!
# The tokens of a file tile its text

The leaves and delimiters of the token trees of a file stand in its text one behind the other, each
at the place that its token says.  What lies between them is white space and comments, and at the
head of the file a byte order mark and a `#!` line.

* `Token.spansL` — the stretches of a file that its tokens name;
* `IsFiller` — what may lie between tokens;
* `Tile` — a stretch of a file, named by a token or not;
* `Token.tiling_of_lex` — the tokens of a file tile its text.
-/

namespace GetterRename

/-! ### Stretches of a file -/

/-- A text and the number of bytes in front of it. -/
structure Span where
  start : Nat
  text : Bytes
  deriving DecidableEq, Repr

namespace Mark

def isDoc : Mark → Bool
  | leaf t => t.isDoc
  | _ => false

/-- The stretch that a mark names: a leaf its text, a group its opening delimiter. Closing delimiters
and documentation have no place of their own. -/
def span? (src : Bytes) : Mark → Option Span
  | leaf (.ident text p) | leaf (.literal text p) => some ⟨p.offset src, text⟩
  | leaf (.punct c _ p) => some ⟨p.offset src, [c]⟩
  | opening d p => some ⟨p.offset src, [byte d.opener]⟩
  | _ => none

theorem span?_of_isDoc {src : Bytes} {mark : Mark} (h : mark.isDoc = true) :
    mark.span? src = none := by
  cases mark with
  | leaf t => cases t <;> first | rfl | simp [isDoc, Token.isDoc] at h
  | _ => simp [isDoc] at h

end Mark

def Token.spansL (src : Bytes) (toks : List Token) : List Span :=
  (marksL toks).filterMap (Mark.span? src)

/-- What may stand between tokens, with the number of bytes in front of it. -/
inductive IsFiller (src : Bytes) : Nat → Bytes → Prop
  | mark : IsFiller src 0 Event.byteOrderMark
  | shebang {text : Bytes} (hhead : Bytes.ofString "#!" <+: text)
      (hattribute : ¬ Bytes.ofString "#![" <+: text) (hline : byte '\n' ∉ text) :
      IsFiller src (Bytes.mark src).length text
  | space {start : Nat} {b : UInt8} (h : Piece.isSpace b = true) : IsFiller src start [b]
  | lineComment {start : Nat} {text : Bytes} (hhead : Bytes.ofString "//" <+: text)
      (hline : byte '\n' ∉ text) : IsFiller src start text
  | blockComment {start : Nat} {text : Bytes} (h : Closes 1 text) :
      IsFiller src start (byte '/' :: byte '*' :: text)

/-- A stretch of a file: that of a mark, or something between marks. -/
structure Tile where
  mark? : Option Mark
  text : Bytes

namespace Tile

def textL (tiles : List Tile) : Bytes := tiles.flatMap (·.text)

def marksL (tiles : List Tile) : List Mark := tiles.filterMap (·.mark?)

/-- Whether the tile is what it is taken for, with `start` bytes in front of it: the stretch that a
mark names, a closing delimiter, or a filler. -/
def Fits (src : Bytes) (start : Nat) : Tile → Prop
  | ⟨none, text⟩ => IsFiller src start text
  | ⟨some (.closing d), text⟩ => text = [byte d.closer]
  | ⟨some mark, text⟩ => mark.span? src = some ⟨start, text⟩

/-- Whether each tile is what it is taken for, with `start` bytes in front of the first one. -/
def FitL (src : Bytes) (start : Nat) : List Tile → Prop
  | [] => True
  | tile :: tiles =>
    tile.text ≠ [] ∧ tile.Fits src start ∧ FitL src (start + tile.text.length) tiles

end Tile

/-- The tokens tile the text. -/
structure Tiling (src : Bytes) (toks : List Token) : Prop where
  /-- Every stretch stands in the text. -/
  stands : ∀ s ∈ Token.spansL src toks, s.text <+: src.drop s.start
  /-- The stretches follow each other and do not overlap. -/
  ordered : (Token.spansL src toks).Pairwise fun s t =>
    s.start < t.start ∧ s.start + s.text.length ≤ t.start
  /-- Together with closing delimiters, each in its place among the tokens, and fillers they are the
  whole text. -/
  covered : ∃ tiles, Tile.textL tiles = src ∧ Tile.FitL src 0 tiles ∧
    Tile.marksL tiles = (Token.marksL toks).filter (!·.isDoc)
  /-- Documentation stands on its line. -/
  docs : ∀ text p, .leaf (.doc text p) ∈ Token.marksL toks →
    0 < p.line ∧ ∃ line, (Bytes.lines src)[p.line - 1]? = some line ∧ text <:+: line

/-! ### Tiles -/

namespace Tile

@[simp] theorem textL_nil : textL [] = [] := rfl

@[simp] theorem textL_cons (tile : Tile) (tiles : List Tile) :
    textL (tile :: tiles) = tile.text ++ textL tiles := by
  simp [textL]

@[simp] theorem textL_append (xs ys : List Tile) : textL (xs ++ ys) = textL xs ++ textL ys := by
  simp [textL]

@[simp] theorem marksL_append (xs ys : List Tile) :
    marksL (xs ++ ys) = marksL xs ++ marksL ys := List.filterMap_append

theorem fitL_append {src : Bytes} {start : Nat} {xs ys : List Tile} (hx : FitL src start xs)
    (hy : FitL src (start + (textL xs).length) ys) : FitL src start (xs ++ ys) := by
  induction xs generalizing start with
  | nil => simpa using hy
  | cons tile xs ih =>
    obtain ⟨hne, hfits, hrest⟩ := hx
    refine ⟨hne, hfits, ih hrest ?_⟩
    rw [textL_cons, List.length_append, ← Nat.add_assoc] at hy
    exact hy

def spansL (src : Bytes) (tiles : List Tile) : List Span :=
  (marksL tiles).filterMap (Mark.span? src)

theorem spansL_cons {src : Bytes} {start : Nat} {tile : Tile} (h : tile.Fits src start)
    (tiles : List Tile) :
    spansL src (tile :: tiles) = ⟨start, tile.text⟩ :: spansL src tiles ∨
      spansL src (tile :: tiles) = spansL src tiles := by
  obtain ⟨mark, text⟩ := tile
  cases mark with
  | none => exact .inr rfl
  | some mark =>
    have hcons : spansL src (⟨some mark, text⟩ :: tiles) =
        (mark.span? src).toList ++ spansL src tiles := by
      cases hspan : mark.span? src <;> simp [spansL, marksL, hspan]
    cases mark with
    | closing d => exact .inr hcons
    | leaf t =>
      have hspan : Mark.span? src (.leaf t) = some ⟨start, text⟩ := h
      exact .inl (by rw [hcons, hspan]; rfl)
    | opening d p =>
      have hspan : Mark.span? src (.opening d p) = some ⟨start, text⟩ := h
      exact .inl (by rw [hcons, hspan]; rfl)

/-- Tiles name stretches that start behind what is in front of them. -/
theorem start_le {src : Bytes} {start : Nat} {tiles : List Tile} (h : FitL src start tiles) :
    ∀ s ∈ spansL src tiles, start ≤ s.start := by
  induction tiles generalizing start with
  | nil => simp [spansL, marksL]
  | cons tile tiles ih =>
    obtain ⟨-, hfits, hrest⟩ := h
    have hbehind := ih hrest
    intro s hs
    rcases spansL_cons hfits tiles with hcons | hcons
    · rw [hcons, List.mem_cons] at hs
      rcases hs with rfl | hs
      · exact Nat.le_refl _
      · have := hbehind s hs
        omega
    · rw [hcons] at hs
      have := hbehind s hs
      omega

theorem pairwise_spansL {src : Bytes} {start : Nat} {tiles : List Tile}
    (h : FitL src start tiles) :
    (spansL src tiles).Pairwise fun s t =>
      s.start < t.start ∧ s.start + s.text.length ≤ t.start := by
  induction tiles generalizing start with
  | nil => simp [spansL, marksL]
  | cons tile tiles ih =>
    obtain ⟨hne, hfits, hrest⟩ := h
    rcases spansL_cons hfits tiles with hcons | hcons
    · rw [hcons, List.pairwise_cons]
      refine ⟨fun t ht => ?_, ih hrest⟩
      have hbehind := start_le hrest t ht
      have hpos := List.length_pos_iff.2 hne
      exact ⟨by show start < _; omega, hbehind⟩
    · rw [hcons]
      exact ih hrest

theorem stands_spansL {src before : Bytes} {tiles : List Tile} (hsrc : src = before ++ textL tiles)
    (h : FitL src before.length tiles) :
    ∀ s ∈ spansL src tiles, s.text <+: src.drop s.start := by
  induction tiles generalizing before with
  | nil => simp [spansL, marksL]
  | cons tile tiles ih =>
    obtain ⟨-, hfits, hrest⟩ := h
    rw [textL_cons] at hsrc
    have hsrc' : src = before ++ tile.text ++ textL tiles := by rw [hsrc, List.append_assoc]
    have hbehind := ih hsrc' (by rwa [List.length_append])
    intro s hs
    rcases spansL_cons hfits tiles with hcons | hcons
    · rw [hcons, List.mem_cons] at hs
      rcases hs with rfl | hs
      · show tile.text <+: src.drop before.length
        rw [hsrc, List.drop_left]
        exact List.prefix_append _ _
      · exact hbehind s hs
    · rw [hcons] at hs
      exact hbehind s hs

end Tile

/-! ### The tiles of a file -/

theorem Event.mem_ofBlockDoc {p : Pos} {lines : List Bytes} {e : Event}
    (h : e ∈ ofBlockDoc p lines) :
    ∃ (i : Nat) (line : Bytes) (q : Pos), lines[i]? = some line ∧ q.line = p.line + i ∧
      e = .token (.doc line q) := by
  cases lines with
  | nil => simp [ofBlockDoc] at h
  | cons first rest =>
    simp only [ofBlockDoc, List.mem_cons, List.mem_mapIdx] at h
    rcases h with rfl | ⟨i, hi, rfl⟩
    · exact ⟨0, first, p, rfl, rfl, rfl⟩
    · exact ⟨i + 1, rest[i], _, by simp [hi], rfl, rfl⟩

namespace Element

/-- The mark of an element at `p`, if it is no filler. -/
def mark? (p : Pos) (e : Element) : Option Mark :=
  match e.piece with
  | .blank | .lineComment | .blockComment => none
  | .opening d => some (.opening d p)
  | .closing d => some (.closing d)
  | .ident => some (.leaf (.ident e.text p))
  | .literal => some (.leaf (.literal e.text p))
  | .punct joint => e.text.head?.map fun c => .leaf (.punct c joint p)

def tiles (p : Pos) : List Element → List Tile
  | [] => []
  | e :: es => ⟨e.mark? p, e.text⟩ :: tiles (p.advance e.text) es

theorem textL_tiles (p : Pos) (es : List Element) : Tile.textL (tiles p es) = textL es := by
  induction es generalizing p with
  | nil => rfl
  | cons e es ih => simp [tiles, ih]

/-- Documentation apart, an element is reported as its mark. -/
theorem marks_ofPiece (p : Pos) (e : Element) :
    ((Event.ofPiece p e.text e.piece).map Event.mark).filter (!·.isDoc) = (e.mark? p).toList := by
  obtain ⟨piece, text⟩ := e
  cases piece with
  | lineComment =>
    simp only [Event.ofPiece, mark?]
    split <;> rfl
  | blockComment =>
    rw [mark?, Option.toList_none, List.filter_eq_nil_iff]
    intro m hm
    obtain ⟨e, he, rfl⟩ := List.mem_map.1 hm
    obtain ⟨i, line, q, -, -, rfl⟩ := Event.mem_ofBlockDoc he
    simp [Event.mark, Mark.isDoc, Token.isDoc]
  | punct joint => cases text <;> rfl
  | _ => rfl

theorem marksL_tiles (p : Pos) (es : List Element) :
    Tile.marksL (tiles p es) = ((events p es).map Event.mark).filter (!·.isDoc) := by
  induction es generalizing p with
  | nil => rfl
  | cons e es ih =>
    rw [events, List.map_append, List.filter_append, marks_ofPiece, ← ih]
    cases hmark : e.mark? p <;> simp [tiles, Tile.marksL, hmark]

theorem fitL_tiles {src before text : Bytes} {es : List Element} (h : Reads text es)
    (hsrc : Bytes.dropHead Event.byteOrderMark src = before ++ text) :
    Tile.FitL src ((Bytes.mark src).length + before.length)
      (tiles ((⟨1, 0⟩ : Pos).advance before) es) := by
  induction h generalizing before with
  | done => trivial
  | @next b x y piece es element _ ih =>
    have hoffset := Pos.offset_advance hsrc
    have hspells := Piece.spells_of_at? element
    have hsrc' : Bytes.dropHead Event.byteOrderMark src = (before ++ b :: x) ++ y := by
      rw [hsrc]
      simp
    have hbehind := ih hsrc'
    rw [Pos.advance_append, List.length_append, ← Nat.add_assoc] at hbehind
    refine ⟨nofun, ?_, hbehind⟩
    have hfiller : IsFiller src ((Bytes.mark src).length + before.length) (b :: x) →
        Tile.Fits src ((Bytes.mark src).length + before.length) ⟨none, b :: x⟩ := id
    cases piece with
    | blank =>
      obtain ⟨c, hc, hspace⟩ := hspells
      exact hfiller (hc ▸ .space hspace)
    | lineComment => exact hfiller (.lineComment hspells.1 hspells.2)
    | blockComment =>
      obtain ⟨inner, hinner, hcloses⟩ := hspells
      exact hfiller (hinner ▸ .blockComment hcloses)
    | closing d => exact hspells
    | opening d =>
      rw [show b :: x = [byte d.opener] from hspells, ← hoffset]
      rfl
    | punct joint =>
      obtain ⟨c, hc⟩ := hspells
      rw [hc, ← hoffset]
      rfl
    | _ =>
      rw [← hoffset]
      rfl

end Element

/-! ### The head of a file -/

namespace Tile

def ofFiller (text : Bytes) : List Tile := if text = [] then [] else [⟨none, text⟩]

theorem textL_ofFiller (text : Bytes) : textL (ofFiller text) = text := by
  unfold ofFiller
  split
  · rename_i h
    exact h.symm
  · simp

theorem marksL_ofFiller (text : Bytes) : marksL (ofFiller text) = [] := by
  unfold ofFiller
  split <;> rfl

theorem fitL_ofFiller {src text : Bytes} {start : Nat} (h : text ≠ [] → IsFiller src start text) :
    FitL src start (ofFiller text) := by
  unfold ofFiller
  split
  · trivial
  · rename_i hne
    exact ⟨hne, h hne, trivial⟩

end Tile

namespace Event

theorem isFiller_mark {src : Bytes} (h : Bytes.mark src ≠ []) :
    IsFiller src 0 (Bytes.mark src) := by
  have heq : Bytes.mark src = byteOrderMark := by
    unfold Bytes.mark at h ⊢
    split at h
    · rename_i hstarts
      rw [if_pos hstarts]
    · exact absurd rfl h
  exact heq ▸ .mark

theorem isFiller_shebang {src text : Bytes} (h : text.take (shebang text) ≠ []) :
    IsFiller src (Bytes.mark src).length (text.take (shebang text)) := by
  have hline := (shebang_spec text).1
  rcases shebang_eq text with ⟨hzero, -⟩ | ⟨a, b, htext, hbracket, hsize, -, -⟩
  · rw [hzero] at h
    exact absurd List.take_zero h
  · have htake : text.take (shebang text) = byte '#' :: byte '!' :: a := by
      rw [hsize, htext]
      simp
    rw [htake] at hline ⊢
    refine .shebang ⟨a, rfl⟩ ?_ hline
    rintro ⟨c, hc⟩
    have ha : a = byte '[' :: c := by
      have := (List.cons.inj (List.cons.inj hc).2).2
      exact this.symm
    rw [ha] at hbracket
    exact hbracket rfl

theorem start_eq (src : Bytes) :
    Token.start src = (⟨1, 0⟩ : Pos).advance
      ((Bytes.dropHead byteOrderMark src).take (shebang (Bytes.dropHead byteOrderMark src))) := by
  have hline := (shebang_spec (Bytes.dropHead byteOrderMark src)).1
  rw [Pos.advance_of_no_newline _ hline, Token.start]
  generalize Bytes.dropHead byteOrderMark src = text
  have hle : shebang text ≤ text.length := by
    unfold shebang
    split
    · exact (List.takeWhile_prefix _).length_le
    · exact Nat.zero_le _
  simp [Nat.min_eq_left hle]

end Event

/-! ### Documentation -/

namespace Bytes

theorem dropTail_prefix (tail text : Bytes) : dropTail tail text <+: text := by
  unfold dropTail before?
  split
  · exact List.take_prefix _ _
  · exact List.prefix_refl _

theorem dropHead_suffix (head text : Bytes) : dropHead head text <:+ text := by
  unfold dropHead after?
  split
  · exact List.drop_suffix _ _
  · exact List.suffix_refl _

theorem lines_of_no_newline {text : Bytes} (h : byte '\n' ∉ text) : lines text = [text] := by
  induction text with
  | nil => rfl
  | cons b text ih =>
    rw [List.mem_cons, not_or] at h
    obtain ⟨first, rest, htext, hcons⟩ := lines_cons (fun hb => h.1 hb.symm) text
    rw [ih h.2] at htext
    obtain ⟨rfl, rfl⟩ := List.cons.inj htext
    exact hcons

end Bytes

namespace Piece

theorem lineDoc?_infix {text doc : Bytes} (h : lineDoc? text = some doc) : doc <:+: text := by
  unfold lineDoc? at h
  simp only at h
  split at h
  · obtain rfl := Option.some.inj h
    exact (List.drop_suffix _ _).isInfix.trans (Bytes.dropTail_prefix _ _).isInfix
  · simp at h

theorem starredLine_infix (line : Bytes) : starredLine line <:+: line :=
  (Bytes.dropHead_suffix _ _).isInfix.trans
    ((List.dropWhile_suffix _).isInfix.trans (Bytes.dropTail_prefix _ _).isInfix)

/-- The lines of a documentation block comment stand on its lines. -/
theorem blockDoc_infix {text doc : Bytes} {i : Nat} (h : (blockDoc text)[i]? = some doc) :
    ∃ line, (Bytes.lines text)[i]? = some line ∧ doc <:+: line := by
  unfold blockDoc at h
  split at h
  · rename_i hcond
    have hhead : byte '\n' ∉ text.take 3 := by
      have hstart : ∃ head rest, text = head ++ rest ∧ head.length = 3 ∧ byte '\n' ∉ head := by
        simp only [Bool.or_eq_true, Bool.and_eq_true] at hcond
        rcases hcond with hinner | ⟨⟨houter, -⟩, -⟩
        · obtain ⟨rest, rfl⟩ := List.isPrefixOf_iff_prefix.1 hinner
          exact ⟨_, rest, rfl, by decide, by decide⟩
        · obtain ⟨rest, rfl⟩ := List.isPrefixOf_iff_prefix.1 houter
          exact ⟨_, rest, rfl, by decide, by decide⟩
      obtain ⟨head, rest, rfl, hlength, hno⟩ := hstart
      rwa [← hlength, List.take_left]
    have hcontent : ∃ content, (Bytes.lines ((text.drop 3).take (text.length - 5)))[i]? =
        some content ∧ doc <:+: content := by
      unfold Bytes.lines
      split at h
      · simp at h
      · rename_i first rest hsplit
        rw [hsplit]
        cases i with
        | zero =>
          obtain rfl : Bytes.dropTail "\r" first = doc := by simpa using h
          exact ⟨first, rfl, (Bytes.dropTail_prefix _ _).isInfix⟩
        | succ i =>
          simp only [List.getElem?_cons_succ, List.getElem?_map, Option.map_eq_some_iff] at h
          obtain ⟨line, hline, rfl⟩ := h
          exact ⟨line, by simpa using hline, starredLine_infix line⟩
    obtain ⟨content, hline, hdoc⟩ := hcontent
    obtain ⟨whole, hwhole, hpart⟩ := Bytes.exists_line_of_part (text.take 3) hline
      ((text.drop 3).drop (text.length - 5))
    rw [List.take_append_drop, List.take_append_drop, List.count_eq_zero.2 hhead,
      Nat.add_zero] at hwhole
    exact ⟨whole, hwhole, hdoc.trans hpart⟩
  · simp at h

end Piece

namespace Event

theorem doc_of_ofPiece {p q : Pos} {text doc : Bytes} {piece : Piece}
    (hspells : piece.Spells text) (h : token (.doc doc q) ∈ ofPiece p text piece) :
    ∃ i line, (Bytes.lines text)[i]? = some line ∧ doc <:+: line ∧ q.line = p.line + i := by
  cases piece with
  | lineComment =>
    simp only [ofPiece] at h
    split at h
    · rename_i content hdoc
      obtain ⟨rfl, rfl⟩ : doc = content ∧ q = p := by simpa using h
      refine ⟨0, text, ?_, Piece.lineDoc?_infix hdoc, rfl⟩
      rw [Bytes.lines_of_no_newline hspells.2]
      rfl
    · simp at h
  | blockComment =>
    obtain ⟨i, content, q', hcontent, hq, heq⟩ := mem_ofBlockDoc h
    obtain ⟨rfl, rfl⟩ : doc = content ∧ q = q' := by simpa using heq
    obtain ⟨line, hline, hdoc⟩ := Piece.blockDoc_infix hcontent
    exact ⟨i, line, hline, hdoc, hq⟩
  | punct joint => simp [ofPiece] at h
  | _ => simp [ofPiece] at h

end Event

/-! ### Files -/

namespace Reads

theorem spells_of_split {text : Bytes} {e : Element} {es₁ es₂ : List Element}
    (h : Reads text (es₁ ++ e :: es₂)) : e.piece.Spells e.text := by
  have hrest := h.append_right
  generalize Element.textL (e :: es₂) = rest at hrest
  cases hrest with
  | next element _ => exact Piece.spells_of_at? element

end Reads

namespace Token

theorem tiling_of_reads {src : Bytes} {toks : List Token} {es : List Element}
    (hreads : Reads (body src) es)
    (hnest : nest (Element.events (start src) es) [] [] = .ok ([], toks.reverse)) :
    Tiling src toks := by
  let text := Bytes.dropHead Event.byteOrderMark src
  let line := text.take (Event.shebang text)
  have htext : text = line ++ body src := (List.take_append_drop _ _).symm
  have hstart : start src = (⟨1, 0⟩ : Pos).advance line := Event.start_eq src
  have hmarks := marksL_of_nest hnest
  let tiles := Tile.ofFiller (Bytes.mark src) ++
    (Tile.ofFiller line ++ Element.tiles (start src) es)
  have htiles : Tile.textL tiles = src := by
    rw [Tile.textL_append, Tile.textL_append, Tile.textL_ofFiller, Tile.textL_ofFiller,
      Element.textL_tiles, hreads.textL_eq, ← htext]
    exact Bytes.mark_append src
  have hfit : Tile.FitL src 0 tiles := by
    refine Tile.fitL_append (Tile.fitL_ofFiller Event.isFiller_mark) ?_
    rw [Tile.textL_ofFiller, Nat.zero_add]
    refine Tile.fitL_append (Tile.fitL_ofFiller Event.isFiller_shebang) ?_
    rw [Tile.textL_ofFiller, hstart]
    exact Element.fitL_tiles hreads htext
  have hmarked : Tile.marksL tiles = (marksL toks).filter (!·.isDoc) := by
    rw [hmarks, ← Element.marksL_tiles]
    simp [tiles, Tile.marksL_ofFiller]
  have hspans : Tile.spansL src tiles = spansL src toks := by
    rw [Tile.spansL, hmarked, spansL, List.filterMap_filter]
    refine congrArg (List.filterMap · (marksL toks)) (funext fun mark => ?_)
    cases hdoc : mark.isDoc with
    | false => rfl
    | true => exact (Mark.span?_of_isDoc hdoc).symm
  refine ⟨?_, ?_, ⟨tiles, htiles, hfit, hmarked⟩, ?_⟩
  · have hsrc : src = [] ++ Tile.textL tiles := htiles.symm
    rw [← hspans]
    exact Tile.stands_spansL hsrc hfit
  · rw [← hspans]
    exact Tile.pairwise_spansL hfit
  · intro doc p hmem
    rw [hmarks, List.mem_map] at hmem
    obtain ⟨event, hevent, hmark⟩ := hmem
    obtain rfl : event = .token (.doc doc p) := by
      cases event <;> simp_all [Event.mark]
    obtain ⟨es₁, e, es₂, rfl, hpiece⟩ := Element.exists_of_mem_events hevent
    obtain ⟨i, content, hcontent, hdoc, hline⟩ := Event.doc_of_ofPiece hreads.spells_of_split hpiece
    rw [hstart, ← Pos.advance_append, Pos.line_advance_count] at hline
    obtain ⟨whole, hwhole, hpart⟩ := Bytes.exists_line_of_part
      (Bytes.mark src ++ (line ++ Element.textL es₁)) hcontent (Element.textL es₂)
    have hsrc : Bytes.mark src ++ (line ++ Element.textL es₁) ++ (e.text ++ Element.textL es₂) =
        src := by
      have hbody := hreads.textL_eq
      rw [Element.textL_append, Element.textL_cons] at hbody
      rw [List.append_assoc, List.append_assoc, hbody, ← htext]
      exact Bytes.mark_append src
    rw [hsrc, List.count_append, List.count_eq_zero.2 (Bytes.mark_no_newline src)] at hwhole
    have hindex : p.line - 1 = i + (0 + (line ++ Element.textL es₁).count (byte '\n')) := by
      simp only at hline
      omega
    exact ⟨by simp only at hline; omega, whole, hindex ▸ hwhole, hdoc.trans hpart⟩

/-- **The tokens of a file tile its text.** -/
theorem tiling_of_lex {src : Bytes} {toks : List Token} (h : lex src = .ok toks) :
    Tiling src toks := by
  obtain ⟨es, hreads, hnest⟩ := lex_eq_ok_iff.1 h
  exact tiling_of_reads hreads hnest

/-- The elements of a file behind its `#!` line: documentation, a call with an argument of two lines,
nested comments and a name. -/
def tiledElements : List Element :=
  [⟨.blank, "\n"⟩, ⟨.blockComment, "/** a\n * b */"⟩, ⟨.blank, " "⟩, ⟨.ident, "f"⟩,
    ⟨.opening .paren, "("⟩, ⟨.literal, "\"x\ny\""⟩, ⟨.closing .paren, ")"⟩, ⟨.blank, " "⟩,
    ⟨.blockComment, "/* /* */ */"⟩, ⟨.blank, " "⟩, ⟨.ident, "z"⟩]

def tiledTokens : List Token :=
  [.doc " a" ⟨2, 0⟩, .doc " b " ⟨3, 0⟩, .ident "f" ⟨3, 8⟩,
    .group .paren [.literal "\"x\ny\"" ⟨3, 10⟩] ⟨3, 9⟩, .ident "z" ⟨4, 16⟩]

def tiledSource : Bytes :=
  Event.byteOrderMark ++ (Bytes.ofString "#!run" ++ Element.textL tiledElements)

theorem tiling_of_lex_tiledSource :
    lex tiledSource = .ok tiledTokens ∧ Tiling tiledSource tiledTokens ∧
      (spansL tiledSource tiledTokens).map (·.start) = [23, 24, 25, 44] := by
  have hreads : Reads (body tiledSource) tiledElements := by
    have hbody : body tiledSource = Element.textL tiledElements := by decide +kernel
    rw [hbody]
    exact .of_fits (by decide +kernel)
  have hlex : lex tiledSource = .ok tiledTokens :=
    lex_eq_ok_iff.2 ⟨tiledElements, hreads, by rfl⟩
  exact ⟨hlex, tiling_of_lex hlex, by decide +kernel⟩

end Token

end GetterRename
