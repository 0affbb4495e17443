import GetterRename.Proofs.Source.Element

/-!
# Reading a text

A text without a fault is a sequence of elements, each with its own bytes, and scanning reports the
events of these elements at the places where they stand.

* `Pos.Before` — the order of places in a file;
* `Reads` — the elements of a text, and `Element.fits` to check them;
* `Event.scan_eq_iff` — scanning without a fault is reading;
* `Element.exists_of_mem_events` — the element that reports an event;
* `Element.split_of_events` — the element behind an identifier that was reported.
-/

namespace GetterRename

/-! ### Places -/

namespace Pos

/-- One place stands before another: on an earlier line, or further left on the same one. -/
def Before (p q : Pos) : Prop := p.line < q.line ∨ p.line = q.line ∧ p.col < q.col

theorem Before.trans {p q r : Pos} (h1 : p.Before q) (h2 : q.Before r) : p.Before r := by
  unfold Before at *
  omega

theorem Before.ne {p q : Pos} (h : p.Before q) : p ≠ q := by
  rintro rfl
  unfold Before at h
  omega

@[simp] theorem advance_nil (p : Pos) : p.advance [] = p := rfl

@[simp] theorem advance_cons (p : Pos) (b : UInt8) (text : Bytes) :
    p.advance (b :: text) = (p.next b).advance text := rfl

theorem advance_append (p : Pos) (a b : Bytes) :
    p.advance (a ++ b) = (p.advance a).advance b := List.foldl_append

theorem before_next (p : Pos) (b : UInt8) : p.Before (p.next b) := by
  unfold next
  split
  · exact .inl (Nat.lt_succ_self _)
  · exact .inr ⟨rfl, Nat.lt_succ_self _⟩

theorem before_advance (p : Pos) {text : Bytes} (h : text ≠ []) : p.Before (p.advance text) := by
  obtain ⟨b, text, rfl⟩ := List.exists_cons_of_ne_nil h
  rw [advance_cons]
  have hnext := p.before_next b
  induction text generalizing b p with
  | nil => exact hnext
  | cons c text ih =>
    rw [advance_cons]
    exact ih (p.next b) c (by simp) (before_next _ c) |> hnext.trans

theorem le_line_advance (p : Pos) (text : Bytes) : p.line ≤ (p.advance text).line := by
  by_cases htext : text = []
  · rw [htext, advance_nil]
  · have := p.before_advance htext
    unfold Before at this
    omega

/-- A place in a text tells what stands in front of it. -/
theorem eq_of_advance {p : Pos} {a b x y : Bytes} (htext : a ++ x = b ++ y)
    (h : p.advance a = p.advance b) : a = b := by
  rcases List.append_eq_append_iff.1 htext with ⟨m, rfl, -⟩ | ⟨m, rfl, -⟩
  all_goals
    rw [advance_append] at h
    by_cases hm : m = []
    · rw [hm, List.append_nil]
  · exact absurd h ((p.advance a).before_advance hm).ne
  · exact absurd h.symm ((p.advance b).before_advance hm).ne

theorem advance_of_no_newline (p : Pos) {text : Bytes} (h : byte '\n' ∉ text) :
    p.advance text = ⟨p.line, p.col + text.length⟩ := by
  induction text generalizing p with
  | nil => rfl
  | cons b text ih =>
    rw [List.mem_cons, not_or] at h
    have hb : p.next b = ⟨p.line, p.col + 1⟩ := if_neg (fun hc => h.1 hc.symm)
    rw [advance_cons, hb, ih _ h.2]
    simp only [List.length_cons, Nat.add_comm text.length, Nat.add_assoc]

theorem line_advance {p q : Pos} (h : p.line = q.line) (text : Bytes) :
    (p.advance text).line = (q.advance text).line := by
  induction text generalizing p q with
  | nil => exact h
  | cons b text ih =>
    rw [advance_cons, advance_cons]
    refine ih ?_
    unfold next
    split
    · exact congrArg (· + 1) h
    · exact h

/-- The place behind a text on a line whose first bytes do not count. -/
theorem advance_from (k col : Nat) (a : Bytes) :
    (⟨k, col⟩ : Pos).advance a = ⟨((⟨k, 0⟩ : Pos).advance a).line,
      ((⟨k, 0⟩ : Pos).advance a).col + if ((⟨k, 0⟩ : Pos).advance a).line = k then col else 0⟩ := by
  induction a generalizing k col with
  | nil => simp
  | cons b a ih =>
    by_cases hb : b = byte '\n'
    · have hnext : ∀ c, (⟨k, c⟩ : Pos).next b = ⟨k + 1, 0⟩ := fun c => if_pos hb
      have hline : k + 1 ≤ ((⟨k + 1, 0⟩ : Pos).advance a).line := le_line_advance ⟨k + 1, 0⟩ a
      rw [advance_cons, advance_cons, hnext, hnext, if_neg (by omega)]
      rfl
    · have hnext : ∀ c, (⟨k, c⟩ : Pos).next b = ⟨k, c + 1⟩ := fun c => if_neg hb
      rw [advance_cons, advance_cons, hnext, hnext, ih k (col + 1), ih k (0 + 1)]
      simp only [Nat.add_assoc]
      refine congrArg (fun c => Pos.mk _ (_ + c)) ?_
      split <;> omega

end Pos

/-! ### Elements -/

structure Element where
  piece : Piece
  text : Bytes
  deriving DecidableEq

/-- The text is read as these elements. -/
inductive Reads : Bytes → List Element → Prop where
  | done : Reads [] []
  | next {b : UInt8} {x y : Bytes} {piece : Piece} {es : List Element}
      (element : Piece.at? b (x ++ y) = .ok (piece, x.length)) (rest : Reads y es) :
      Reads (b :: (x ++ y)) (⟨piece, b :: x⟩ :: es)

namespace Element

def textL (es : List Element) : Bytes := es.flatMap (·.text)

@[simp] theorem textL_nil : textL [] = [] := rfl

@[simp] theorem textL_cons (e : Element) (es : List Element) :
    textL (e :: es) = e.text ++ textL es := by
  simp [textL]

@[simp] theorem textL_append (es es' : List Element) :
    textL (es ++ es') = textL es ++ textL es' := by
  simp [textL]

def events (p : Pos) : List Element → List Event
  | [] => []
  | e :: es => Event.ofPiece p e.text e.piece ++ events (p.advance e.text) es

theorem events_append (p : Pos) (es es' : List Element) :
    events p (es ++ es') = events p es ++ events (p.advance (textL es)) es' := by
  induction es generalizing p with
  | nil => rfl
  | cons e es ih =>
    simp only [List.cons_append, events, ih, textL_cons, Pos.advance_append, List.append_assoc]

/-- Whether each element is read where it stands. -/
def fits : List Element → Bool
  | [] => true
  | ⟨_, []⟩ :: _ => false
  | ⟨piece, b :: x⟩ :: es => Piece.at? b (x ++ textL es) = .ok (piece, x.length) && fits es

end Element

namespace Reads

theorem of_fits {es : List Element} (h : Element.fits es = true) : Reads (Element.textL es) es := by
  fun_induction Element.fits es with
  | case1 => exact .done
  | case2 => simp at h
  | case3 piece b x es ih =>
    simp only [Bool.and_eq_true, decide_eq_true_eq] at h
    exact .next h.1 (ih h.2)

theorem textL_eq {text : Bytes} {es : List Element} (h : Reads text es) :
    Element.textL es = text := by
  induction h with
  | done => rfl
  | next _ _ ih => simp [ih]

theorem of_textL {text : Bytes} {es : List Element} (h : Reads text es) :
    Reads (Element.textL es) es := by
  rwa [h.textL_eq]

theorem text_ne_nil {text : Bytes} {es : List Element} (h : Reads text es) :
    ∀ e ∈ es, e.text ≠ [] := by
  induction h with
  | done => simp
  | next _ _ ih =>
    intro e he
    rcases List.mem_cons.1 he with rfl | he
    · simp
    · exact ih e he

theorem append_right {text : Bytes} {es₁ es₂ : List Element} (h : Reads text (es₁ ++ es₂)) :
    Reads (Element.textL es₂) es₂ := by
  induction es₁ generalizing text with
  | nil => exact h.of_textL
  | cons e es₁ ih =>
    cases h with
    | next _ rest => exact ih rest

/-- A text is read in one way. -/
theorem unique {text : Bytes} {es es' : List Element} (h : Reads text es) (h' : Reads text es') :
    es = es' := by
  induction h generalizing es' with
  | done =>
    cases h'
    rfl
  | @next b x y piece es element rest ih =>
    generalize htext : b :: (x ++ y) = text at h'
    cases h' with
    | done => exact nomatch htext
    | @next b' x' y' piece' es' element' rest' =>
      obtain ⟨rfl, hrest⟩ := List.cons.inj htext
      rw [hrest, element'] at element
      obtain ⟨rfl, hlength⟩ := Prod.mk.inj (Except.ok.inj element)
      obtain ⟨rfl, rfl⟩ := List.append_inj hrest hlength.symm
      rw [ih rest']

/-- A place in a text tells which elements stand in front of it. -/
theorem split_unique {text : Bytes} {p : Pos} {a b a' b' : List Element} (h : Reads text (a ++ b))
    (h' : Reads text (a' ++ b'))
    (hpos : p.advance (Element.textL a) = p.advance (Element.textL a')) : a = a' ∧ b = b' := by
  have heq := h.unique h'
  have htext : Element.textL a = Element.textL a' := by
    refine Pos.eq_of_advance (x := Element.textL b) (y := Element.textL b') ?_ hpos
    rw [← Element.textL_append, heq, Element.textL_append]
  -- no element is empty
  have hnil : ∀ m : List Element, (∀ e ∈ m, e.text ≠ []) → Element.textL m = [] → m = [] := by
    intro m hm hempty
    cases m with
    | nil => rfl
    | cons e m =>
      rw [Element.textL_cons] at hempty
      exact absurd (List.append_eq_nil_iff.1 hempty).1 (hm e (by simp))
  rcases List.append_eq_append_iff.1 heq with ⟨m, rfl, rfl⟩ | ⟨m, rfl, rfl⟩
  all_goals
    rw [Element.textL_append] at htext
  · obtain rfl := hnil m (fun e he => h.text_ne_nil e (by simp [he])) (by simpa using htext)
    simp
  · obtain rfl := hnil m (fun e he => h.text_ne_nil e (by simp [he])) (by simpa using htext)
    simp

theorem startsIdent {b : UInt8} {rest : Bytes} {es : List Element} (h : Reads (b :: rest) es)
    (hb : 0x80 ≤ b) : startsIdent (b :: rest) = true := by
  cases h with
  | next element _ =>
    obtain rfl := Piece.at?_above element hb
    exact (Piece.at?_ident element).1

end Reads

namespace Event

theorem scan_cons (p : Pos) (b : UInt8) (rest : Bytes) :
    scan p (b :: rest) =
      match Piece.at? b rest with
      | .error fault => ([], some ⟨p, fault⟩)
      | .ok (piece, n) =>
        let element := b :: rest.take n
        let (events, fault) := scan (p.advance element) (rest.drop n)
        (ofPiece p element piece ++ events, fault) :=
  scan.eq_def p (b :: rest)

theorem scan_of_reads {text : Bytes} {es : List Element} (h : Reads text es) (p : Pos) :
    scan p text = (Element.events p es, none) := by
  induction h generalizing p with
  | done => rw [scan]; rfl
  | @next b x y piece es element _ ih =>
    simp only [scan_cons, element, List.take_left, List.drop_left, ih]
    rfl

theorem exists_reads {text : Bytes} {p : Pos} {events : List Event}
    (h : scan p text = (events, none)) : ∃ es, Reads text es := by
  generalize hn : text.length = n
  induction n using Nat.strongRecOn generalizing text p events with
  | _ n ih =>
    cases text with
    | nil => exact ⟨[], .done⟩
    | cons b rest =>
      rw [scan_cons] at h
      cases hat : Piece.at? b rest with
      | error fault => simp [hat] at h
      | ok found =>
        obtain ⟨piece, m⟩ := found
        obtain ⟨x, y, rfl, rfl, -, -⟩ := Piece.at?_inv hat
        simp only [hat, List.take_left, List.drop_left, Prod.mk.injEq] at h
        simp only [List.length_cons, List.length_append] at hn
        obtain ⟨es, hes⟩ := ih y.length (by omega) (Prod.ext rfl h.2) rfl
        exact ⟨_, .next hat hes⟩

/-- **Scanning is reading.**  A text scanned without a fault has elements, and their events are
what is reported. -/
theorem scan_eq_iff {text : Bytes} {p : Pos} {events : List Event} :
    scan p text = (events, none) ↔ ∃ es, Reads text es ∧ events = Element.events p es := by
  constructor
  · intro h
    obtain ⟨es, hes⟩ := exists_reads h
    rw [scan_of_reads hes, Prod.mk.injEq] at h
    exact ⟨es, hes, h.1.symm⟩
  · rintro ⟨es, hes, rfl⟩
    exact scan_of_reads hes p

theorem ident_of_mem_ofPiece {p q : Pos} {text name : Bytes} {piece : Piece}
    (h : token (.ident name q) ∈ ofPiece p text piece) : piece = .ident ∧ name = text ∧ q = p := by
  cases piece with
  | ident =>
    simp only [ofPiece, List.mem_singleton, token.injEq, Token.ident.injEq] at h
    exact ⟨rfl, h⟩
  | lineComment =>
    simp only [ofPiece] at h
    split at h <;> simp at h
  | blockComment =>
    simp only [ofPiece] at h
    cases hd : Piece.blockDoc text with
    | nil => simp [hd, ofBlockDoc] at h
    | cons first rest => simp [hd, ofBlockDoc] at h
  | punct joint => simp [ofPiece] at h
  | _ => simp [ofPiece] at h

end Event

namespace Element

theorem exists_of_mem_events {p : Pos} {event : Event} {es : List Element}
    (h : event ∈ events p es) : ∃ es₁ e es₂, es = es₁ ++ e :: es₂ ∧
      event ∈ Event.ofPiece (p.advance (textL es₁)) e.text e.piece := by
  induction es generalizing p with
  | nil => simp [events] at h
  | cons e es ih =>
    rw [events, List.mem_append] at h
    rcases h with h | h
    · exact ⟨[], e, es, rfl, h⟩
    · obtain ⟨es₁, e', es₂, rfl, hmem⟩ := ih h
      refine ⟨e :: es₁, e', es₂, rfl, ?_⟩
      rwa [textL_cons, Pos.advance_append]

/-- An identifier that was reported is an element of its own. -/
theorem split_of_events {p q : Pos} {name : Bytes} {es : List Element} {before after : List Event}
    (h : events p es = before ++ .token (.ident name q) :: after) :
    ∃ es₁ es₂, es = es₁ ++ ⟨.ident, name⟩ :: es₂ ∧ q = p.advance (textL es₁) ∧
      after = events (q.advance name) es₂ := by
  induction es generalizing p before with
  | nil => simp [events] at h
  | cons e es ih =>
    rw [events] at h
    rcases List.append_eq_append_iff.1 h with ⟨m, rfl, hm⟩ | ⟨m, hm, hrest⟩
    · obtain ⟨es₁, es₂, rfl, rfl, hafter⟩ := ih hm
      refine ⟨e :: es₁, es₂, rfl, ?_, hafter⟩
      rw [textL_cons, Pos.advance_append]
    · cases m with
      | nil =>
        obtain ⟨es₁, es₂, rfl, rfl, hafter⟩ := @ih _ [] hrest.symm
        refine ⟨e :: es₁, es₂, rfl, ?_, hafter⟩
        rw [textL_cons, Pos.advance_append]
      | cons ev m =>
        obtain ⟨rfl, hafter⟩ := List.cons.inj hrest
        have hmem : Event.token (.ident name q) ∈ Event.ofPiece p e.text e.piece := by
          rw [hm]
          simp
        obtain ⟨hpiece, rfl, rfl⟩ := Event.ident_of_mem_ofPiece hmem
        obtain ⟨piece, text⟩ := e
        subst hpiece
        have hone : before = [] ∧ m = [] := by
          have := congrArg List.length hm
          simp only [Event.ofPiece, List.length_append, List.length_cons,
            List.length_nil] at this
          exact ⟨List.eq_nil_of_length_eq_zero (by omega), List.eq_nil_of_length_eq_zero (by omega)⟩
        obtain ⟨rfl, rfl⟩ := hone
        exact ⟨[], es, rfl, rfl, hafter⟩

end Element

end GetterRename
