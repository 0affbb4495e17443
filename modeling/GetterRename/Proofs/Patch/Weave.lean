import GetterRename.Proofs.Patch.Elements
import GetterRename.Proofs.Source.TokenList

/-!
# Elements with texts in front of lines

Walking along a text with renames and with texts to put in cuts it wherever no rename is cut: into
lines, as patching does, and into elements, as reading does.  So the new text is made of the old
elements, each with the renames inside of it, and of what is put behind the newlines between them.

* `Element.written`, `Element.woven` — elements after the walk;
* `Plan.Turns` — what a plan does to elements, one at a time, and `Plan.Places.turns` when it does;
* `Plan.Turns.weave`, `Plan.Turns.renamed`, `Plan.Turns.stack` — what comes of them;
* `Plan.Turns.exists_lineStart` — the heads of lines.
-/

namespace GetterRename

namespace Plan

variable {plan : Plan}

/-! ### Renames inside of comments -/

theorem reworded_walk {p : Pos} {text : Bytes}
    (h : ∀ a₁ a₂ r, text = a₁ ++ a₂ → a₂ ≠ [] → plan (p.advance a₁) = some r →
      (∃ c, a₂ = r.name ++ c) ∧ IsName r.name ∧ IsName r.newName.text) :
    Reworded text (plan.walk p 0 text) := by
  have hbytes : ∀ {name : Bytes}, IsName name → ∀ c ∈ name, isRunByte c = true := by
    intro name hname c hc
    simpa [isRunByte] using hname.run.forall_mem c hc
  generalize hn : text.length = n
  induction n using Nat.strongRecOn generalizing p text with
  | _ n ih =>
    cases text with
    | nil => exact .nil
    | cons b rest =>
      rw [List.length_cons] at hn
      cases hp : plan p with
      | none =>
        simp only [walk, hp]
        refine .keep b (ih rest.length (by omega) (fun a₁ a₂ r ha hne hr => ?_) rfl)
        exact h (b :: a₁) a₂ r (by rw [ha]; rfl) hne hr
      | some r =>
        obtain ⟨⟨c, hc⟩, hold, hnew⟩ := h [] (b :: rest) r rfl (by simp) hp
        rw [hc, walk_rename hp hold.ne_nil]
        obtain ⟨d, old, hname⟩ := List.exists_cons_of_ne_nil hold.ne_nil
        have hlength : (b :: rest).length = (r.name ++ c).length := by rw [hc]
        have hpos := List.length_pos_iff.2 hold.ne_nil
        simp only [List.length_cons, List.length_append] at hlength
        have hrest := @ih c.length (by omega) (p.advance r.name) c
          (fun a₁ a₂ s ha hne hs => h (r.name ++ a₁) a₂ s (by rw [hc, ha, List.append_assoc]) hne
            (by rwa [Pos.advance_append])) rfl
        have hwords := hbytes hold
        rw [hname] at hwords hrest ⊢
        exact .word hwords hnew.ne_nil (hbytes hnew) hrest

end Plan

/-! ### Elements after the walk -/

namespace Element

/-- The element with the renames inside of it. -/
def turned (plan : Plan) (p : Pos) (e : Element) : Element := ⟨e.piece, plan.walk p 0 e.text⟩

/-- The elements from `p` on with their renames, and with `front q` at each place `q` behind one. -/
def written (plan : Plan) (front : Pos → List Element) : Pos → List Element → List Element
  | _, [] => []
  | p, e :: es =>
    e.turned plan p :: (front (p.advance e.text) ++ written plan front (p.advance e.text) es)

/-- The elements with `front p` in front of them, too. -/
def woven (plan : Plan) (front : Pos → List Element) (p : Pos) (es : List Element) : List Element :=
  front p ++ written plan front p es

variable {plan : Plan} {front : Pos → List Element}

theorem written_append (p : Pos) (es es' : List Element) :
    written plan front p (es ++ es') =
      written plan front p es ++ written plan front (p.advance (textL es)) es' := by
  induction es generalizing p with
  | nil => rfl
  | cons e es ih =>
    simp only [List.cons_append, written, ih, textL_cons, Pos.advance_append, List.append_assoc]

theorem turned_of_quiet {p : Pos} {e : Element} (h : plan.Quiet p e.text) : e.turned plan p = e := by
  have hwalk := Plan.walk_keep h []
  rw [List.append_nil, Plan.walk, List.append_nil] at hwalk
  rw [turned, hwalk]

theorem turned_of_planned {p : Pos} {r : Rename} (h : plan p = some r) (hne : r.name ≠ []) :
    turned plan p ⟨.ident, r.name⟩ = ⟨.ident, r.newName.text⟩ := by
  have hwalk := Plan.walk_rename h hne []
  rw [List.append_nil, Plan.walk, List.append_nil] at hwalk
  rw [turned, hwalk]

theorem written_of_quiet {p : Pos} {es : List Element}
    (h : ∀ es₁ e es₂, es = es₁ ++ e :: es₂ → plan.Quiet (p.advance (textL es₁)) e.text ∧
      front (p.advance (textL (es₁ ++ [e]))) = []) : written plan front p es = es := by
  induction es generalizing p with
  | nil => rfl
  | cons e es ih =>
    obtain ⟨hquiet, hnone⟩ := h [] e es rfl
    rw [List.nil_append, textL_cons, textL_nil, List.append_nil] at hnone
    rw [written, turned_of_quiet (by simpa using hquiet), hnone, List.nil_append, ih]
    intro es₁ e' es₂ hes
    have hrest := h (e :: es₁) e' es₂ (by rw [hes]; rfl)
    rwa [List.cons_append, textL_cons, textL_cons, Pos.advance_append, Pos.advance_append] at hrest

end Element

namespace Plan

open Element (written woven)

/-- What a plan does to an element at `p` in front of `es`: nothing, or it gives a new name to an
identifier or rewords a comment. -/
inductive Turn (plan : Plan) (p : Pos) (es : List Element) : Element → Prop where
  | keep {e : Element} (quiet : plan.Quiet p e.text) : Turn plan p es e
  | rename {r : Rename} (planned : plan p = some r) (hold : IsName r.name)
      (hnew : IsName r.newName.text) (word : r.name.head?.any isWordByte = true)
      (hnext : ∀ c, (Element.textL es).head? = some c → c ∉ Piece.hazards)
      (whole : plan.Whole p r.name) : Turn plan p es ⟨.ident, r.name⟩
  | comment {piece : Piece} {text : Bytes} (hpiece : piece = .lineComment ∨ piece = .blockComment)
      (words : Reworded text (plan.walk p 0 text)) (whole : plan.Whole p text) :
      Turn plan p es ⟨piece, text⟩

/-- A plan takes the elements from `p` on one at a time, and something is put behind newlines only. -/
inductive Turns (plan : Plan) (front : Pos → List Element) : Pos → List Element → Prop where
  | done (p : Pos) : Turns plan front p []
  | next {p : Pos} {e : Element} {es : List Element} (text : e.text ≠ []) (turn : Turn plan p es e)
      (unbroken : Unbroken front p e.text)
      (stop : front (p.advance e.text) = [] ∨ e = .newline)
      (rest : Turns plan front (p.advance e.text) es) : Turns plan front p (e :: es)

theorem Turn.whole {p : Pos} {es : List Element} {e : Element} (h : Turn plan p es e) :
    plan.Whole p e.text := by
  cases h with
  | keep quiet => exact .of_quiet quiet
  | rename _ _ _ _ _ whole => exact whole
  | comment _ _ whole => exact whole

theorem Turn.line_advance {p q : Pos} {es : List Element} {e : Element} (h : Turn plan p es e)
    (hpq : q.line = p.line) :
    (q.advance (e.turned plan p).text).line = (p.advance e.text).line := by
  cases h with
  | keep quiet =>
    rw [Element.turned_of_quiet quiet]
    exact Pos.line_advance hpq e.text
  | rename planned hold hnew word hnext whole =>
    rw [Element.turned_of_planned planned hold.ne_nil]
    simp only [hold.line_advance, hnew.line_advance, hpq]
  | comment hpiece words whole => exact words.line_advance hpq

theorem Turn.newline {p : Pos} {es : List Element} (h : Turn plan p es .newline) :
    Element.newline.turned plan p = .newline := by
  cases h with
  | keep quiet => exact Element.turned_of_quiet quiet
  | comment hpiece words whole => rcases hpiece with hpiece | hpiece <;> exact nomatch hpiece

/-! ### Places of renames -/

/-- The rename stands at the place `q`, in a comment of the elements from `p` on. -/
def InComment (p : Pos) (es : List Element) (q : Pos) (r : Rename) : Prop :=
  ∃ es₁ e es₂ a c, es = es₁ ++ e :: es₂ ∧ (e.piece = .lineComment ∨ e.piece = .blockComment) ∧
    e.text = a ++ r.name ++ c ∧ q = p.advance (Element.textL es₁ ++ a)

/-- A place in a text is none behind it. -/
theorem advance_ne_behind {p : Pos} {a a₁ a₂ : Bytes} (ha : a = a₁ ++ a₂) (hne : a₂ ≠ [])
    (b : Bytes) : p.advance a₁ ≠ p.advance (a ++ b) := by
  rw [ha, List.append_assoc, Pos.advance_append]
  exact (Pos.before_advance _ (List.append_ne_nil_of_left_ne_nil hne b)).ne

/-- A rename that starts in the first element is its name or stands in it as in a comment. -/
theorem first_of_place {p : Pos} {e : Element} {es : List Element} {r : Rename} {a₁ a₂ : Bytes}
    (ha : e.text = a₁ ++ a₂) (hne : a₂ ≠ [])
    (h : Site p (e :: es) (p.advance a₁) r ∨ InComment p (e :: es) (p.advance a₁) r) :
    (e = ⟨.ident, r.name⟩ ∧ a₁ = [] ∧
        ∀ c, (Element.textL es).head? = some c → c ∉ Piece.hazards) ∨
      (e.piece = .lineComment ∨ e.piece = .blockComment) ∧ ∃ c, a₂ = r.name ++ c := by
  rcases h with ⟨es₁, es₂, hes, hpos, hnext⟩ | ⟨es₁, e', es₂, a, c, hes, hpiece, htext, hpos⟩
  · cases es₁ with
    | nil =>
      obtain ⟨rfl, rfl⟩ := List.cons.inj hes
      exact .inl ⟨rfl, Pos.eq_of_advance (b := []) ha.symm hpos, hnext⟩
    | cons e₁ es₁ =>
      obtain ⟨rfl, rfl⟩ := List.cons.inj hes
      exact absurd hpos (advance_ne_behind ha hne _)
  · cases es₁ with
    | nil =>
      obtain ⟨rfl, rfl⟩ := List.cons.inj hes
      rw [htext, List.append_assoc] at ha
      obtain rfl := Pos.eq_of_advance ha.symm hpos
      exact .inr ⟨hpiece, c, (List.append_cancel_left ha).symm⟩
    | cons e₁ es₁ =>
      obtain ⟨rfl, rfl⟩ := List.cons.inj hes
      rw [Element.textL_cons, List.append_assoc] at hpos
      exact absurd hpos (advance_ne_behind ha hne _)

theorem not_advance_before (p : Pos) (a : Bytes) : ¬ (p.advance a).Before p := by
  intro hbefore
  by_cases ha : a = []
  · exact hbefore.ne (by rw [ha, Pos.advance_nil])
  · exact (hbefore.trans (p.before_advance ha)).ne rfl

/-- Where the renames of a plan stand and where something is put in: before `p`, or in the elements
from `p` on. -/
structure Places (plan : Plan) (front : Pos → List Element) (p : Pos) (es : List Element) : Prop where
  texts : ∀ e ∈ es, e.text ≠ []
  names : ∀ q r, plan q = some r → IsName r.name ∧ IsName r.newName.text ∧
    r.name.head?.any isWordByte = true
  /-- Renames are those of identifiers and of words in comments. -/
  renames : ∀ q r, plan q = some r → q.Before p ∨ Site p es q r ∨ InComment p es q r
  /-- Something is put behind newlines only. -/
  fronts : ∀ q, front q ≠ [] → q.Before p ∨ q = p ∨ ∃ es₁ es₂, es = es₁ ++ .newline :: es₂ ∧
    q = p.advance (Element.textL (es₁ ++ [.newline]))

namespace Places

variable {front : Pos → List Element} {p : Pos} {e : Element} {es : List Element}

theorem first (h : Places plan front p (e :: es)) {a₁ a₂ : Bytes} {r : Rename}
    (ha : e.text = a₁ ++ a₂) (hne : a₂ ≠ []) (hr : plan (p.advance a₁) = some r) :
    (e = ⟨.ident, r.name⟩ ∧ a₁ = [] ∧
        ∀ c, (Element.textL es).head? = some c → c ∉ Piece.hazards) ∨
      (e.piece = .lineComment ∨ e.piece = .blockComment) ∧ ∃ c, a₂ = r.name ++ c :=
  first_of_place ha hne ((h.renames _ _ hr).resolve_left (not_advance_before p a₁))

theorem whole (h : Places plan front p (e :: es)) : plan.Whole p e.text := by
  intro a₁ a₂ r ha hne hr
  rcases h.first ha hne hr with ⟨rfl, rfl, -⟩ | ⟨-, c, rfl⟩
  · exact (congrArg List.length ha).le
  · simp

theorem turn (h : Places plan front p (e :: es)) : Turn plan p es e := by
  by_cases hquiet : plan.Quiet p e.text
  · exact .keep hquiet
  obtain ⟨a₁, a₂, r, ha, hne, hr⟩ : ∃ a₁ a₂ r, e.text = a₁ ++ a₂ ∧ a₂ ≠ [] ∧
      plan (p.advance a₁) = some r := by
    by_contra hno
    refine hquiet fun a₁ a₂ ha hne => ?_
    cases hr : plan (p.advance a₁) with
    | none => rfl
    | some r => exact absurd ⟨a₁, a₂, r, ha, hne, hr⟩ hno
  rcases h.first ha hne hr with ⟨rfl, rfl, hnext⟩ | ⟨hpiece, -⟩
  · obtain ⟨hold, hnew, hword⟩ := h.names _ r hr
    exact .rename hr hold hnew hword hnext h.whole
  · refine .comment hpiece (reworded_walk fun a₁ a₂ r ha hne hr => ?_) h.whole
    obtain ⟨hold, hnew, -⟩ := h.names _ r hr
    rcases h.first ha hne hr with ⟨rfl, -⟩ | ⟨-, hc⟩
    · rcases hpiece with hpiece | hpiece <;> exact nomatch hpiece
    · exact ⟨hc, hold, hnew⟩

/-- What is put in behind `p` is put behind a newline. -/
theorem exists_newline (h : Places plan front p es) {a : Bytes} (ha : a ≠ [])
    (hput : front (p.advance a) ≠ []) : ∃ es₁ es₂, es = es₁ ++ .newline :: es₂ ∧
      p.advance a = p.advance (Element.textL (es₁ ++ [.newline])) :=
  ((h.fronts _ hput).resolve_left (not_advance_before p a)).resolve_left
    (p.before_advance ha).ne.symm

theorem unbroken (h : Places plan front p (e :: es)) : Unbroken front p e.text := by
  intro a₁ a₂ ha hne₁ hne₂
  by_contra hput
  obtain ⟨es₁, es₂, hsplit, hpos⟩ := h.exists_newline hne₁ hput
  cases es₁ with
  | nil =>
    obtain ⟨rfl, rfl⟩ := List.cons.inj hsplit
    exact advance_ne_behind ha hne₂ [] hpos
  | cons e₁ es₁ =>
    obtain ⟨rfl, rfl⟩ := List.cons.inj hsplit
    exact advance_ne_behind ha hne₂ _ hpos

/-- Something is put behind the first element only if it is a newline. -/
theorem stop (h : Places plan front p (e :: es)) :
    front (p.advance e.text) = [] ∨ e = .newline := by
  by_contra hput
  rw [not_or] at hput
  obtain ⟨es₁, es₂, hsplit, hpos⟩ := h.exists_newline (h.texts e List.mem_cons_self) hput.1
  cases es₁ with
  | nil => exact hput.2 (List.cons.inj hsplit).1
  | cons e₁ es₁ =>
    obtain ⟨rfl, rfl⟩ := List.cons.inj hsplit
    rw [List.cons_append, Element.textL_cons, Pos.advance_append] at hpos
    exact (Pos.before_advance _ (by simp [Element.textL, Element.newline])).ne hpos

theorem renames_tail (h : Places plan front p (e :: es)) {q : Pos} {r : Rename}
    (hr : plan q = some r) : q.Before (p.advance e.text) ∨ Site (p.advance e.text) es q r ∨
      InComment (p.advance e.text) es q r := by
  have he := h.texts e List.mem_cons_self
  rcases h.renames q r hr with hbefore | ⟨es₁, es₂, hsplit, hpos, hnext⟩ |
    ⟨es₁, e', es₂, a, c, hsplit, hpiece, htext, hpos⟩
  · exact .inl (hbefore.trans (p.before_advance he))
  · cases es₁ with
    | nil => exact .inl (hpos ▸ p.before_advance he)
    | cons e₁ es₁ =>
      obtain ⟨rfl, rfl⟩ := List.cons.inj hsplit
      rw [Element.textL_cons, Pos.advance_append] at hpos
      exact .inr (.inl ⟨es₁, es₂, rfl, hpos, hnext⟩)
  · cases es₁ with
    | nil =>
      -- the rename ends with the comment, or before
      obtain ⟨rfl, rfl⟩ := List.cons.inj hsplit
      have hend := (p.advance a).before_advance
        (List.append_ne_nil_of_left_ne_nil (h.names q r hr).1.ne_nil c)
      rw [← Pos.advance_append, ← List.append_assoc, ← htext] at hend
      exact .inl (hpos ▸ hend)
    | cons e₁ es₁ =>
      obtain ⟨rfl, rfl⟩ := List.cons.inj hsplit
      rw [Element.textL_cons, List.append_assoc, Pos.advance_append] at hpos
      exact .inr (.inr ⟨es₁, e', es₂, a, c, rfl, hpiece, htext, hpos⟩)

theorem tail (h : Places plan front p (e :: es)) : Places plan front (p.advance e.text) es where
  texts e' he' := h.texts e' (List.mem_cons_of_mem _ he')
  names := h.names
  renames _ _ hr := h.renames_tail hr
  fronts q hq := by
    have he := h.texts e List.mem_cons_self
    rcases h.fronts q hq with hbefore | rfl | ⟨es₁, es₂, hsplit, hpos⟩
    · exact .inl (hbefore.trans (p.before_advance he))
    · exact .inl (q.before_advance he)
    · cases es₁ with
      | nil =>
        obtain ⟨rfl, rfl⟩ := List.cons.inj hsplit
        exact .inr (.inl hpos)
      | cons e₁ es₁ =>
        obtain ⟨rfl, rfl⟩ := List.cons.inj hsplit
        rw [List.cons_append, Element.textL_cons, Pos.advance_append] at hpos
        exact .inr (.inr ⟨es₁, es₂, rfl, hpos⟩)

/-- **A plan takes elements one at a time** where it renames identifiers and words in comments, and
where something is put behind newlines only. -/
theorem turns (h : Places plan front p es) : Turns plan front p es := by
  induction es generalizing p with
  | nil => exact .done p
  | cons e es ih =>
    exact .next (h.texts e List.mem_cons_self) h.turn h.unbroken h.stop (ih h.tail)

end Places

namespace Turns

variable {front : Pos → List Element} {p q : Pos} {es : List Element}

theorem weave (h : Turns plan front p es) :
    plan.weave (fun q => Element.textL (front q)) p 0 (Element.textL es) =
      Element.textL (written plan front p es) := by
  induction h with
  | done p => rfl
  | @next p e es text turn unbroken stop rest ih =>
    have hunbroken : Unbroken (fun q => Element.textL (front q)) p e.text :=
      fun a₁ a₂ ha hne₁ hne₂ => by simp only [unbroken a₁ a₂ ha hne₁ hne₂, Element.textL_nil]
    rw [Element.textL_cons, weave_append (Nat.zero_le _) text turn.whole hunbroken, ih]
    simp only [written, Element.textL_cons, Element.textL_append, Element.turned]

/-- What is written is read, if what is put in is read in front of any text. -/
theorem renamed (h : Turns plan front p es) (hfree : ∀ q, Element.Free (front q)) :
    Renamed es (written plan front p es) := by
  induction h with
  | done p => exact .nil
  | @next p e es text turn unbroken stop rest ih =>
    rw [written]
    by_cases hnone : front (p.advance e.text) = []
    · rw [hnone, List.nil_append]
      cases turn with
      | keep quiet =>
        rw [Element.turned_of_quiet quiet]
        exact .keep e ih
      | rename planned hold hnew word hnext whole =>
        rw [Element.turned_of_planned planned hold.ne_nil]
        exact .rename word hnew hnext ih
      | comment hpiece words whole => exact .comment hpiece words ih
    · obtain rfl := stop.resolve_left hnone
      rw [turn.newline]
      exact .front (hfree _) ih

/-- What is written opens and closes the same groups, if what is put in opens and closes none. -/
theorem stack (h : Turns plan front p es)
    (hfront : ∀ (q q' : Pos) ds, Event.stack (Element.events q' (front q)) ds = some ds)
    (ds : List Delimiter) :
    Event.stack (Element.events q (written plan front p es)) ds =
      Event.stack (Element.events p es) ds := by
  induction h generalizing q ds with
  | done p => rfl
  | @next p e es text turn unbroken stop rest ih =>
    have hneutral : ∀ q', Event.stack (Element.events q' (front (p.advance e.text) ++
        written plan front (p.advance e.text) es)) =
        Event.stack (Element.events (p.advance e.text) es) := by
      intro q'
      funext ds
      rw [Element.events_append, Event.stack_append, hfront]
      exact ih ds
    simp only [written, Element.events, Event.stack_append, hneutral]
    rw [Event.stack_ofPiece _ p _ e.text]
    rfl

theorem line_advance {es₁ es₂ : List Element} (h : Turns plan front p (es₁ ++ es₂))
    (hfront : ∀ q q' : Pos, (q'.advance (Element.textL (front q))).line = q'.line)
    (hpq : q.line = p.line) :
    (q.advance (Element.textL (written plan front p es₁))).line =
      (p.advance (Element.textL es₁)).line := by
  induction es₁ generalizing p q with
  | nil => exact hpq
  | cons e es₁ ih =>
    cases h with
    | next text turn unbroken stop rest =>
      simp only [written, Element.textL_cons, Element.textL_append, Pos.advance_append]
      refine ih rest ?_
      rw [hfront, turn.line_advance hpq]

theorem append_right {es₁ es₂ : List Element} (h : Turns plan front p (es₁ ++ es₂)) :
    Turns plan front (p.advance (Element.textL es₁)) es₂ := by
  induction es₁ generalizing p with
  | nil => exact h
  | cons e es₁ ih =>
    cases h with
    | next text turn unbroken stop rest =>
      rw [Element.textL_cons, Pos.advance_append]
      exact ih rest

/-- **The head of a line** is where it was, and what is put in front of the line stands there. -/
theorem exists_lineStart {es₁ es₂ : List Element} (h : Turns plan front p (es₁ ++ es₂))
    (hfront : ∀ q q' : Pos, (q'.advance (Element.textL (front q))).line = q'.line)
    (hstart : es₁ = [] ∨ ∃ above, es₁ = above ++ [.newline]) (hq : q = p.advance (Element.textL es₁)) :
    ∃ es₀, woven plan front p (es₁ ++ es₂) = es₀ ++ woven plan front q es₂ ∧
      p.advance (Element.textL es₀) = q := by
  subst hq
  rcases hstart with rfl | ⟨above, rfl⟩
  · exact ⟨[], rfl, rfl⟩
  · rw [List.append_assoc] at h
    have habove := h.line_advance hfront (hfront p p)
    cases h.append_right with
    | next text turn unbroken stop rest =>
      refine ⟨front p ++ (written plan front p above ++ [.newline]), ?_, ?_⟩
      · simp only [woven, Element.written_append, written, turn.newline, Element.textL_append,
          Element.textL_cons, Element.textL_nil, List.append_nil, Pos.advance_append,
          List.append_assoc, List.cons_append, List.nil_append]
      · have hnext : ∀ q : Pos, q.advance (Element.textL [.newline]) = ⟨q.line + 1, 0⟩ :=
          fun q => rfl
        simp only [Element.textL_append _ (_ ++ _), Element.textL_append _ [_], Pos.advance_append,
          hnext, habove]

end Turns

end Plan

end GetterRename
