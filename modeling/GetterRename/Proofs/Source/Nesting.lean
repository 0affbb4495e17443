import GetterRename.Proofs.Source.Reading
import GetterRename.Source.Nesting
import GetterRename.Source.Node

/-!
# Token trees and their marks

A token tree laid out flat is a sequence of marks: its leaves and the delimiters of its groups.
Nesting puts the events of a text into trees and loses nothing: laid out flat, the trees are the
events again.  It does not look at names or places either, so it commutes with changing them.

* `Token.inductionL` — induction over a list of token trees;
* `Token.marksL` — a list of token trees laid out flat;
* `Token.marksL_of_nest` — the marks of nested events are the events;
* `Token.relabelL`, `Token.nest_relabel` — nesting after a change of names and places;
* `Token.lex_eq_ok_iff` — the token trees of a file by its elements.
-/

namespace GetterRename

namespace Token

/-! ### Induction -/

/-- A property of token lists holds if it does not depend on the depth of groups. -/
@[elab_as_elim]
theorem inductionL {motive : List Token → Prop} (nil : motive [])
    (leaf : ∀ t ts, t.isGroup = false → motive ts → motive (t :: ts))
    (group : ∀ d inner p ts, motive inner → motive ts → motive (.group d inner p :: ts))
    (ts : List Token) : motive ts := by
  generalize hn : weightL ts = n
  induction n using Nat.strongRecOn generalizing ts with
  | _ n ih =>
    cases ts with
    | nil => exact nil
    | cons t ts =>
      rw [weightL_cons] at hn
      have hpos := t.weight_pos
      have hts := ih (weightL ts) (by omega) ts rfl
      cases t with
      | group d inner p =>
        rw [weight_group] at hn
        exact group d inner p ts (ih (weightL inner) (by omega) inner rfl) hts
      | _ => exact leaf _ ts rfl hts

end Token

/-! ### Marks -/

/-- A leaf or a delimiter of token trees. -/
inductive Mark where
  | leaf (t : Token)
  | opening (delim : Delimiter) (pos : Pos)
  | closing (delim : Delimiter)

namespace Token

mutual

def marks : Token → List Mark
  | group d tokens p => .opening d p :: (marksL tokens ++ [.closing d])
  | t => [.leaf t]

/-- A list of token trees laid out flat. -/
def marksL : List Token → List Mark
  | [] => []
  | t :: ts => marks t ++ marksL ts

end

@[simp] theorem marksL_nil : marksL [] = [] := rfl

@[simp] theorem marksL_cons (t : Token) (ts : List Token) : marksL (t :: ts) = marks t ++ marksL ts :=
  rfl

@[simp] theorem marks_group (d : Delimiter) (ts : List Token) (p : Pos) :
    marks (group d ts p) = .opening d p :: (marksL ts ++ [.closing d]) := by
  simp [marks]

theorem marks_leaf {t : Token} (h : t.isGroup = false) : marks t = [.leaf t] := by
  cases t with
  | group d ts p => simp [isGroup] at h
  | _ => simp [marks]

@[simp] theorem marksL_append (xs ys : List Token) : marksL (xs ++ ys) = marksL xs ++ marksL ys := by
  induction xs with
  | nil => rfl
  | cons t ts ih => simp [ih]

end Token

namespace Event

def mark : Event → Mark
  | token t => .leaf t
  | opening d p => .opening d p
  | closing d _ => .closing d

def isFlat : Event → Bool
  | token t => !t.isGroup
  | _ => true

theorem isFlat_of_mem_ofPiece {p : Pos} {text : Bytes} {piece : Piece} {e : Event}
    (h : e ∈ ofPiece p text piece) : e.isFlat = true := by
  cases piece with
  | lineComment =>
    simp only [ofPiece] at h
    split at h
    · rw [List.mem_singleton] at h
      subst h
      rfl
    · simp at h
  | blockComment =>
    simp only [ofPiece] at h
    cases hd : Piece.blockDoc text with
    | nil => simp [hd, ofBlockDoc] at h
    | cons first rest =>
      simp only [hd, ofBlockDoc, List.mem_cons, List.mem_mapIdx] at h
      rcases h with rfl | ⟨i, hi, rfl⟩ <;> rfl
  | punct joint =>
    simp only [ofPiece, List.mem_map] at h
    obtain ⟨c, -, rfl⟩ := h
    rfl
  | blank => simp [ofPiece] at h
  | _ =>
    simp only [ofPiece, List.mem_singleton] at h
    subst h
    rfl

end Event

theorem Element.isFlat_of_mem_events {p : Pos} {es : List Element} {e : Event}
    (h : e ∈ events p es) : e.isFlat = true := by
  obtain ⟨es₁, element, es₂, -, hpiece⟩ := exists_of_mem_events h
  exact Event.isFlat_of_mem_ofPiece hpiece

namespace Token

/-- The marks of open groups and of the tokens in the innermost one. -/
def spine : List Frame → List Token → List Mark
  | [], tokens => marksL tokens.reverse
  | frame :: frames, tokens =>
    spine frames frame.before ++ .opening frame.delim frame.pos :: marksL tokens.reverse

theorem spine_cons (frames : List Frame) (t : Token) (tokens : List Token) :
    spine frames (t :: tokens) = spine frames tokens ++ marks t := by
  cases frames <;> simp [spine]

theorem spine_of_nest {events : List Event} {frames frames' : List Frame}
    {tokens tokens' : List Token} (hflat : ∀ e ∈ events, e.isFlat = true)
    (h : nest events frames tokens = .ok (frames', tokens')) :
    spine frames' tokens' = spine frames tokens ++ events.map Event.mark := by
  induction events generalizing frames tokens with
  | nil =>
    obtain ⟨rfl, rfl⟩ := Prod.mk.inj (Except.ok.inj h)
    simp
  | cons e events ih =>
    obtain ⟨he, hrest⟩ := List.forall_mem_cons.1 hflat
    cases e with
    | token t =>
      have ht : t.isGroup = false := by simpa [Event.isFlat] using he
      rw [ih hrest h, spine_cons, marks_leaf ht]
      simp [Event.mark]
    | opening d p =>
      rw [ih hrest h]
      simp [spine, Event.mark]
    | closing d p =>
      cases frames with
      | nil => simp [nest] at h
      | cons frame frames =>
        simp only [nest] at h
        split at h
        · rename_i hd
          rw [ih hrest h, spine_cons]
          simp [spine, Event.mark, hd]
        · simp at h

/-! ### Changing names and places -/

mutual

/-- A token tree with other names, by their text and place, and other places. -/
def relabel (name : Ident → Bytes) (place : Pos → Pos) : Token → Token
  | ident text p => ident (name ⟨text, p⟩) (place p)
  | punct c joint p => punct c joint (place p)
  | literal text p => literal text (place p)
  | group d tokens p => group d (relabelL name place tokens) (place p)
  | doc text p => doc text (place p)

def relabelL (name : Ident → Bytes) (place : Pos → Pos) : List Token → List Token
  | [] => []
  | t :: ts => relabel name place t :: relabelL name place ts

end

theorem relabelL_eq_map (name : Ident → Bytes) (place : Pos → Pos) (ts : List Token) :
    relabelL name place ts = ts.map (relabel name place) := by
  induction ts with
  | nil => rfl
  | cons t ts ih => simp [relabelL, ih]

theorem relabel_group (name : Ident → Bytes) (place : Pos → Pos) (d : Delimiter) (ts : List Token)
    (p : Pos) :
    relabel name place (group d ts p) = group d (ts.map (relabel name place)) (place p) := by
  simp [relabel, relabelL_eq_map]

/-- Two changes, the names first. -/
theorem relabelL_relabelL (name : Ident → Bytes) (place : Pos → Pos) (ts : List Token) :
    relabelL (·.text) place (relabelL name id ts) = relabelL name place ts := by
  induction ts using inductionL with
  | nil => rfl
  | leaf t ts ht ih =>
    rw [relabelL, relabelL, ih, relabelL]
    congr 1
    cases t with
    | group d ts p => simp [isGroup] at ht
    | _ => simp [relabel]
  | group d inner p ts ihInner ih =>
    rw [relabelL, relabelL, ih, relabelL]
    congr 1
    simp only [relabel, ihInner, id]

end Token

namespace Event

def relabel (name : Ident → Bytes) (place : Pos → Pos) : Event → Event
  | token t => token (t.relabel name place)
  | opening d p => opening d (place p)
  | closing d p => closing d (place p)

end Event

def Frame.relabel (name : Ident → Bytes) (place : Pos → Pos) (f : Frame) : Frame :=
  ⟨f.delim, place f.pos, f.before.map (Token.relabel name place)⟩

namespace Token

/-- Nesting looks neither at names nor at places. -/
theorem nest_relabel (name : Ident → Bytes) (place : Pos → Pos) (events : List Event)
    (frames : List Frame) (tokens : List Token) :
    (nest (events.map (Event.relabel name place)) (frames.map (Frame.relabel name place))
        (tokens.map (relabel name place))).toOption =
      (nest events frames tokens).toOption.map fun r =>
        (r.1.map (Frame.relabel name place), r.2.map (relabel name place)) := by
  induction events generalizing frames tokens with
  | nil => rfl
  | cons e events ih =>
    cases e with
    | token t => exact ih frames (t :: tokens)
    | opening d p => exact ih (⟨d, p, tokens⟩ :: frames) []
    | closing d p =>
      cases frames with
      | nil => rfl
      | cons frame frames =>
        simp only [List.map_cons, Event.relabel, nest, Frame.relabel]
        by_cases hd : frame.delim = d
        · rw [if_pos hd, if_pos hd]
          have := ih frames (.group frame.delim tokens.reverse frame.pos :: frame.before)
          rw [List.map_cons, relabel_group, List.map_reverse] at this
          exact this
        · rw [if_neg hd, if_neg hd]
          rfl

/-! ### Files -/

/-- The text of a file that is scanned, behind a byte order mark and a `#!` line. -/
def body (src : Bytes) : Bytes :=
  let text := Bytes.dropHead Event.byteOrderMark src
  text.drop (Event.shebang text)

/-- The place where scanning a file starts. -/
def start (src : Bytes) : Pos := ⟨1, Event.shebang (Bytes.dropHead Event.byteOrderMark src)⟩

/-- **The token trees of a file.**  They come from the elements of its text. -/
theorem lex_eq_ok_iff {src : Bytes} {toks : List Token} :
    lex src = .ok toks ↔ ∃ es, Reads (body src) es ∧
      nest (Element.events (start src) es) [] [] = .ok ([], toks.reverse) := by
  have hlex : lex src = ofEvents (Event.scan (start src) (body src)).1
      (Event.scan (start src) (body src)).2 := rfl
  constructor
  · intro h
    rcases hscan : Event.scan (start src) (body src) with ⟨events, fault⟩
    rw [hlex, hscan, ofEvents] at h
    split at h
    · simp at h
    rename_i frames tokens hnest
    split at h
    · simp at h
    · rename_i hfault
      obtain rfl : fault = none := hfault
      obtain ⟨es, hes, rfl⟩ := Event.scan_eq_iff.1 hscan
      obtain rfl := Except.ok.inj h
      exact ⟨es, hes, by rw [hnest, List.reverse_reverse]⟩
    · simp at h
  · rintro ⟨es, hes, hnest⟩
    rw [hlex, Event.scan_of_reads hes]
    simp [ofEvents, hnest]

theorem marksL_of_nest {p : Pos} {es : List Element} {toks : List Token}
    (h : nest (Element.events p es) [] [] = .ok ([], toks.reverse)) :
    marksL toks = (Element.events p es).map Event.mark := by
  have := spine_of_nest (fun e he => Element.isFlat_of_mem_events he) h
  simpa [spine] using this

end Token

end GetterRename
