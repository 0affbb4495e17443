import GetterRename.Proofs.Source.Nesting

/-!
# Texts with matching brackets

A file has token trees exactly when it is scanned to its end and its delimiters match, and laid out
flat the trees are its events.  Otherwise one fault comes first: a closing delimiter without its
opening one, then the fault where scanning stops, and behind a whole scan the innermost group that is
left open.

What nesting has read is known by the delimiters that are still open, and it goes on until a closing
delimiter does not match the innermost of them.

* `Event.Balanced` — events whose delimiters match;
* `Event.FirstFault` — the earliest fault of events;
* `Event.LeavesOpen` — events with some delimiters still open;
* `Token.exists_nest_iff`, `Token.exists_nest_iff_noStray` — when nesting comes to an end;
* `Token.lex_balanced` — when a file has token trees, and its error if it has none.
-/

namespace GetterRename

namespace Event

/-! ### Matching delimiters -/

/-- Every delimiter has its partner of the same kind, and pairs do not cross. -/
inductive Balanced : List Event → Prop where
  | nil : Balanced []
  | token {t : Token} {es : List Event} (rest : Balanced es) : Balanced (.token t :: es)
  | group {d : Delimiter} {p q : Pos} {inner es : List Event} (content : Balanced inner)
      (rest : Balanced es) : Balanced (.opening d p :: (inner ++ .closing d q :: es))

/-- Behind these events the delimiter `d` from the place `p` is the innermost open one: the
delimiters behind it match. -/
def Innermost (es : List Event) (d : Delimiter) (p : Pos) : Prop :=
  ∃ outer inner, es = outer ++ .opening d p :: inner ∧ Balanced inner

/-- Every closing delimiter has its partner: the innermost open one is of its kind. -/
def NoStray (es : List Event) : Prop :=
  ∀ before d p after, es = before ++ .closing d p :: after → ∃ q, Innermost before d q

/-- The earliest fault of events behind which scanning stopped with `fault`, or came to the end of
the text. -/
inductive FirstFault (es : List Event) (fault : Option SyntaxError) : SyntaxError → Prop where
  /-- The first closing delimiter without a partner. -/
  | stray {before after : List Event} {d : Delimiter} {p : Pos}
      (events : es = before ++ .closing d p :: after) (earlier : NoStray before)
      (unmatched : ∀ q, ¬ Innermost before d q) : FirstFault es fault ⟨p, .unopened d⟩
  /-- The fault where scanning stopped. -/
  | scan {e : SyntaxError} (closers : NoStray es) (stopped : fault = some e) :
      FirstFault es fault e
  /-- At the end of the text, the innermost delimiter that is left open. -/
  | unclosed {d : Delimiter} {p : Pos} (closers : NoStray es) (ended : fault = none)
      (innermost : Innermost es d p) : FirstFault es fault ⟨p, .unclosed d⟩

theorem Balanced.append {a b : List Event} (ha : Balanced a) (hb : Balanced b) :
    Balanced (a ++ b) := by
  induction ha with
  | nil => exact hb
  | token _ ih => exact .token ih
  | group content _ _ ih =>
    rw [List.cons_append, List.append_assoc, List.cons_append]
    exact .group content ih

/-! ### Open delimiters -/

/-- Events that leave these delimiters open, the innermost first. -/
inductive LeavesOpen : List Event → List (Delimiter × Pos) → Prop where
  | none {es : List Event} (closed : Balanced es) : LeavesOpen es []
  | opening {outer inner : List Event} {d : Delimiter} {p : Pos}
      {opens : List (Delimiter × Pos)} (around : LeavesOpen outer opens)
      (content : Balanced inner) :
      LeavesOpen (outer ++ .opening d p :: inner) ((d, p) :: opens)

namespace LeavesOpen

variable {es : List Event} {opens : List (Delimiter × Pos)}

theorem append (h : LeavesOpen es opens) {b : List Event} (hb : Balanced b) :
    LeavesOpen (es ++ b) opens := by
  cases h with
  | none closed => exact .none (closed.append hb)
  | opening around content =>
    rw [List.append_assoc, List.cons_append]
    exact .opening around (content.append hb)

theorem token (h : LeavesOpen es opens) (t : Token) : LeavesOpen (es ++ [.token t]) opens :=
  h.append (.token .nil)

theorem enter (h : LeavesOpen es opens) (d : Delimiter) (p : Pos) :
    LeavesOpen (es ++ [.opening d p]) ((d, p) :: opens) :=
  .opening h .nil

theorem leave {d : Delimiter} {p : Pos} (h : LeavesOpen es ((d, p) :: opens)) (q : Pos) :
    LeavesOpen (es ++ [.closing d q]) opens := by
  cases h with
  | opening around content =>
    rw [List.append_assoc, List.cons_append]
    exact around.append (.group content .nil)

end LeavesOpen

end Event

def Frame.opening (f : Frame) : Delimiter × Pos := (f.delim, f.pos)

namespace Token

open Event

/-! ### Nesting -/

theorem nest_append (a b : List Event) (frames : List Frame) (tokens : List Token) :
    nest (a ++ b) frames tokens =
      match nest a frames tokens with
      | .ok (frames, tokens) => nest b frames tokens
      | .error e => .error e := by
  induction a generalizing frames tokens with
  | nil => rfl
  | cons e a ih =>
    cases e with
    | token t => exact ih frames (t :: tokens)
    | opening d p => exact ih (⟨d, p, tokens⟩ :: frames) []
    | closing d p =>
      cases frames with
      | nil => rfl
      | cons frame frames =>
        simp only [List.cons_append, nest]
        split
        · exact ih _ _
        · rfl

/-- What matches is read without a look at the groups and the tokens around it. -/
theorem exists_content_of_balanced {b : List Event} (h : Balanced b) :
    ∃ content, ∀ frames tokens, nest b frames tokens = .ok (frames, content ++ tokens) := by
  induction h with
  | nil => exact ⟨[], fun _ _ => rfl⟩
  | @token t es _ ih =>
    obtain ⟨content, hes⟩ := ih
    refine ⟨content ++ [t], fun frames tokens => ?_⟩
    rw [nest, hes, List.append_assoc, List.singleton_append]
  | @group d p q inner es _ _ ihInner ihRest =>
    obtain ⟨inside, hinner⟩ := ihInner
    obtain ⟨content, hes⟩ := ihRest
    refine ⟨content ++ [.group d inside.reverse p], fun frames tokens => ?_⟩
    simp only [nest, nest_append, hinner, if_true, hes, List.append_nil, List.append_assoc,
      List.singleton_append]

theorem nest_of_balanced {b : List Event} (h : Balanced b) (frames : List Frame)
    (tokens : List Token) : ∃ tokens', nest b frames tokens = .ok (frames, tokens') := by
  obtain ⟨content, hnest⟩ := exists_content_of_balanced h
  exact ⟨content ++ tokens, hnest frames tokens⟩

/-- The frames behind a whole run are the delimiters that are left open. -/
theorem leavesOpen_of_nest {done rest : List Event} {frames frames' : List Frame}
    {tokens tokens' : List Token} (h : LeavesOpen done (frames.map Frame.opening))
    (hnest : nest rest frames tokens = .ok (frames', tokens')) :
    LeavesOpen (done ++ rest) (frames'.map Frame.opening) := by
  induction rest generalizing done frames tokens with
  | nil =>
    obtain ⟨rfl, -⟩ := Prod.mk.inj (Except.ok.inj hnest)
    rwa [List.append_nil]
  | cons e rest ih =>
    rw [← List.singleton_append, ← List.append_assoc]
    cases e with
    | token t => exact ih (h.token t) hnest
    | opening d p => exact @ih _ (⟨d, p, tokens⟩ :: frames) [] (h.enter d p) hnest
    | closing d p =>
      cases frames with
      | nil => simp [nest] at hnest
      | cons frame frames =>
        simp only [nest] at hnest
        split at hnest
        · rename_i hd
          refine ih ?_ hnest
          rw [← hd]
          exact h.leave p
        · simp at hnest

/-- **Nesting comes to an end exactly when the delimiters nest**, and its frames are the delimiters
that are left open. -/
theorem exists_nest_iff {es : List Event} {opens : List (Delimiter × Pos)} :
    (∃ frames tokens, nest es [] [] = .ok (frames, tokens) ∧ frames.map Frame.opening = opens) ↔
      LeavesOpen es opens := by
  constructor
  · rintro ⟨frames, tokens, hnest, rfl⟩
    exact @leavesOpen_of_nest [] es [] frames [] tokens (.none .nil) hnest
  · intro h
    induction h with
    | none closed =>
      obtain ⟨tokens, hnest⟩ := nest_of_balanced closed [] []
      exact ⟨[], tokens, hnest, rfl⟩
    | @opening outer inner d p opens _ content ih =>
      obtain ⟨frames, tokens, houter, hopens⟩ := ih
      obtain ⟨tokens', hinner⟩ := nest_of_balanced content (⟨d, p, tokens⟩ :: frames) []
      refine ⟨⟨d, p, tokens⟩ :: frames, tokens', ?_, by rw [List.map_cons, hopens]; rfl⟩
      rw [nest_append, houter]
      exact hinner

theorem innermost_iff {es : List Event} {frames : List Frame} {tokens : List Token}
    (h : nest es [] [] = .ok (frames, tokens)) {d : Delimiter} {p : Pos} :
    Innermost es d p ↔ frames.head?.map Frame.opening = some (d, p) := by
  constructor
  · rintro ⟨outer, inner, rfl, hinner⟩
    rw [nest_append] at h
    split at h
    · rename_i frames₀ tokens₀ _
      obtain ⟨tokens₁, hrest⟩ := nest_of_balanced hinner (⟨d, p, tokens₀⟩ :: frames₀) []
      obtain ⟨rfl, -⟩ := Prod.mk.inj (Except.ok.inj (h.symm.trans hrest))
      rfl
    · simp at h
  · intro hframes
    cases frames with
    | nil => simp at hframes
    | cons frame frames =>
      cases exists_nest_iff.1 ⟨_, _, h, rfl⟩ with
      | @opening outer inner _ _ _ _ content =>
        obtain ⟨rfl, rfl⟩ := Prod.mk.inj (Option.some.inj hframes)
        exact ⟨outer, inner, rfl, content⟩

/-- A closing delimiter has its partner when the first frame is of its kind. -/
theorem exists_innermost_iff {es : List Event} {frames : List Frame} {tokens : List Token}
    (h : nest es [] [] = .ok (frames, tokens)) {d : Delimiter} :
    (∃ p, Innermost es d p) ↔ frames.head?.map Frame.delim = some d := by
  simp only [innermost_iff h]
  cases frames with
  | nil => simp
  | cons frame frames => simp [Frame.opening]

theorem exists_of_nest_error {es : List Event} {frames : List Frame} {tokens : List Token}
    {e : SyntaxError} (h : nest es frames tokens = .error e) :
    ∃ before d p after frames' tokens', es = before ++ .closing d p :: after ∧
      nest before frames tokens = .ok (frames', tokens') ∧
      frames'.head?.map Frame.delim ≠ some d ∧ e = ⟨p, .unopened d⟩ := by
  induction es generalizing frames tokens with
  | nil => simp [nest] at h
  | cons event es ih =>
    -- where the event in front is read, the rest of the run stops
    have hnext : ∀ {frames₁ tokens₁},
        (∀ rest, nest (event :: rest) frames tokens = nest rest frames₁ tokens₁) →
        ∃ before d p after frames' tokens', event :: es = before ++ .closing d p :: after ∧
          nest before frames tokens = .ok (frames', tokens') ∧
          frames'.head?.map Frame.delim ≠ some d ∧ e = ⟨p, .unopened d⟩ := by
      intro frames₁ tokens₁ hread
      obtain ⟨before, d, p, after, frames', tokens', rfl, hbefore, hne, he⟩ := ih (hread es ▸ h)
      exact ⟨event :: before, d, p, after, frames', tokens', rfl, (hread before).trans hbefore,
        hne, he⟩
    cases event with
    | token t => exact hnext fun _ => rfl
    | opening d p => exact hnext fun _ => rfl
    | closing d p =>
      cases frames with
      | nil => exact ⟨[], d, p, es, [], tokens, rfl, rfl, by simp, (Except.error.inj h).symm⟩
      | cons frame frames =>
        by_cases hd : frame.delim = d
        · exact hnext fun rest => by rw [nest, if_pos hd]
        · rw [nest, if_neg hd] at h
          exact ⟨[], d, p, es, frame :: frames, tokens, rfl, rfl, by simpa using hd,
            (Except.error.inj h).symm⟩

/-- A run stops at a closing delimiter without a partner. -/
theorem nest_of_stray {before after : List Event} {d : Delimiter} {p : Pos} {frames : List Frame}
    {tokens : List Token} (h : nest before [] [] = .ok (frames, tokens))
    (hd : ∀ q, ¬ Innermost before d q) :
    nest (before ++ .closing d p :: after) [] [] = .error ⟨p, .unopened d⟩ := by
  rw [← not_exists, exists_innermost_iff h] at hd
  simp only [nest_append, h]
  cases frames with
  | nil => rfl
  | cons frame outer => exact if_neg fun hframe => hd (by simp [hframe])

/-- **Nesting comes to an end exactly when no closing delimiter is without its partner.** -/
theorem exists_nest_iff_noStray {es : List Event} :
    (∃ frames tokens, nest es [] [] = .ok (frames, tokens)) ↔ NoStray es := by
  constructor
  · rintro ⟨frames, tokens, h⟩ before d p after rfl
    by_contra hd
    cases hbefore : nest before [] [] with
    | error e =>
      rw [nest_append, hbefore] at h
      simp at h
    | ok found => simp [nest_of_stray hbefore (not_exists.1 hd)] at h
  · intro h
    cases hnest : nest es [] [] with
    | ok found => exact ⟨found.1, found.2, rfl⟩
    | error e =>
      obtain ⟨before, d, p, after, frames, tokens, rfl, hbefore, hne, -⟩ :=
        exists_of_nest_error hnest
      exact absurd ((exists_innermost_iff hbefore).1 (h before d p after rfl)) hne

/-! ### Events -/

theorem exists_ofEvents_iff {es : List Event} {fault : Option SyntaxError} :
    (∃ toks, ofEvents es fault = .ok toks) ↔ fault = none ∧ Balanced es := by
  constructor
  · rintro ⟨toks, h⟩
    cases hnest : nest es [] [] with
    | error e => simp [ofEvents, hnest] at h
    | ok found =>
      obtain ⟨frames, tokens⟩ := found
      cases fault with
      | some e => simp [ofEvents, hnest] at h
      | none =>
        cases frames with
        | cons frame outer => simp [ofEvents, hnest] at h
        | nil =>
          cases exists_nest_iff.1 ⟨_, _, hnest, rfl⟩ with
          | none closed => exact ⟨rfl, closed⟩
  · rintro ⟨rfl, hbalanced⟩
    obtain ⟨tokens, hnest⟩ := nest_of_balanced hbalanced [] []
    exact ⟨tokens.reverse, by simp [ofEvents, hnest]⟩

/-- The fault of events is their first one. -/
theorem ofEvents_eq_error_iff {es : List Event} {fault : Option SyntaxError} {e : SyntaxError} :
    ofEvents es fault = .error e ↔ FirstFault es fault e := by
  constructor
  · intro h
    cases hnest : nest es [] [] with
    | error e' =>
      obtain rfl : e' = e := by simpa [ofEvents, hnest] using h
      obtain ⟨before, d, p, after, frames, tokens, rfl, hbefore, hne, rfl⟩ :=
        exists_of_nest_error hnest
      refine .stray rfl (exists_nest_iff_noStray.1 ⟨_, _, hbefore⟩) ?_
      rwa [← not_exists, exists_innermost_iff hbefore]
    | ok found =>
      obtain ⟨frames, tokens⟩ := found
      have hclosers := exists_nest_iff_noStray.1 ⟨_, _, hnest⟩
      cases fault with
      | some e' =>
        obtain rfl : e' = e := by simpa [ofEvents, hnest] using h
        exact .scan hclosers rfl
      | none =>
        cases frames with
        | nil => simp [ofEvents, hnest] at h
        | cons frame outer =>
          obtain rfl : ⟨frame.pos, .unclosed frame.delim⟩ = e := by
            simpa [ofEvents, hnest] using h
          exact .unclosed hclosers rfl ((innermost_iff hnest).2 rfl)
  · intro h
    cases h with
    | stray events earlier unmatched =>
      obtain ⟨frames, tokens, hbefore⟩ := exists_nest_iff_noStray.2 earlier
      simp [ofEvents, events, nest_of_stray hbefore unmatched]
    | scan closers stopped =>
      obtain ⟨frames, tokens, hnest⟩ := exists_nest_iff_noStray.2 closers
      simp [ofEvents, hnest, stopped]
    | unclosed closers ended innermost =>
      obtain ⟨frames, tokens, hnest⟩ := exists_nest_iff_noStray.2 closers
      have hframes := (innermost_iff hnest).1 innermost
      cases frames with
      | nil => simp at hframes
      | cons frame outer =>
        obtain ⟨rfl, rfl⟩ := Prod.mk.inj (Option.some.inj hframes)
        simp [ofEvents, hnest, ended]

/-! ### Files -/

/-- **A file has token trees exactly when its brackets match.**  It has them when it is scanned to
its end and its delimiters match; laid out flat, they are its events, where the mark of a closing
delimiter has no place, since a tree keeps none.  Otherwise its error is the first fault. -/
theorem lex_balanced (src : Bytes) :
    let events := (Event.ofSource src).1
    let fault := (Event.ofSource src).2
    ((∃ toks, lex src = .ok toks) ↔ fault = none ∧ Event.Balanced events) ∧
      (∀ toks, lex src = .ok toks → marksL toks = events.map Event.mark) ∧
      ∀ e, lex src = .error e ↔ Event.FirstFault events fault e := by
  refine ⟨exists_ofEvents_iff, fun toks h => ?_, fun e => ofEvents_eq_error_iff⟩
  obtain ⟨es, hreads, hnest⟩ := lex_eq_ok_iff.1 h
  have hevents : Event.ofSource src = (Element.events (start src) es, none) :=
    Event.scan_of_reads hreads (start src)
  rw [hevents]
  exact marksL_of_nest hnest

/-- A closing delimiter without its partner comes before the text that is never closed. -/
example : lex "([)\"" = .error ⟨⟨1, 2⟩, .unopened .paren⟩ := by cbv

end Token

end GetterRename
