import GetterRename.Proofs.Patch.Place
import GetterRename.Proofs.Source.Names
import GetterRename.Proofs.Source.Renaming

/-!
# Walking along elements

A plan whose renames stand at identifiers, each of them a safe one, takes the elements of a text one
at a time: an element is left as it is, or it is an identifier and gets its new name.  So walking
along the text gives the text of the renamed elements, and the events of the renamed elements are
those of the elements up to columns, with the planned names.

* `Plan.Site` — an identifier that a plan may rename;
* `Plan.Along` — elements before and after walking along them;
* `Plan.exists_along` — a plan of sites takes elements one at a time;
* `Plan.Along.walk`, `Plan.Along.renamed`, `Plan.Along.events` — what comes of them.
-/

namespace GetterRename

/-- A place without its column. -/
def Pos.lineOnly (p : Pos) : Pos := ⟨p.line, 0⟩

namespace Plan

def nameOf (plan : Plan) (id : Ident) : Bytes := (plan id.pos).elim id.text (·.newName.text)

/-- The rename stands at the place `q`, where an identifier of the elements from `p` on is, and no
hazard is behind it. -/
def Site (p : Pos) (es : List Element) (q : Pos) (r : Rename) : Prop :=
  ∃ es₁ es₂, es = es₁ ++ ⟨.ident, r.name⟩ :: es₂ ∧ q = p.advance (Element.textL es₁) ∧
    ∀ c, (Element.textL es₂).head? = some c → c ∉ Piece.hazards

/-- Elements from `p` on before and after the renames of a plan; behind the last of them comes
`tail`. -/
inductive Along (plan : Plan) (tail : List Element) : Pos → List Element → List Element → Prop where
  | done {p : Pos} (quiet : plan p = none) : Along plan tail p [] tail
  | keep {p : Pos} {e : Element} {es es' : List Element} (text : e.text ≠ [])
      (quiet : plan.Quiet p e.text) (rest : Along plan tail (p.advance e.text) es es') :
      Along plan tail p (e :: es) (e :: es')
  | rename {p : Pos} {r : Rename} {es es' : List Element} (planned : plan p = some r)
      (hold : IsName r.name) (hnew : IsName r.newName.text)
      (word : r.name.head?.any isWordByte = true)
      (hnext : ∀ c, (Element.textL es).head? = some c → c ∉ Piece.hazards)
      (rest : Along plan tail (p.advance r.name) es es') :
      Along plan tail p (⟨.ident, r.name⟩ :: es) (⟨.ident, r.newName.text⟩ :: es')

theorem exists_along {plan : Plan} {tail : List Element} {p : Pos} {es : List Element}
    (htext : ∀ e ∈ es, e.text ≠ [])
    (hname : ∀ q r, plan q = some r → IsName r.name ∧ IsName r.newName.text ∧
      r.name.head?.any isWordByte = true)
    (hsite : ∀ q r, plan q = some r → q.Before p ∨ Site p es q r) :
    ∃ es', Along plan tail p es es' := by
  induction es generalizing p with
  | nil =>
    refine ⟨tail, .done ?_⟩
    cases hp : plan p with
    | none => rfl
    | some r =>
      rcases hsite p r hp with hb | ⟨es₁, es₂, heq, -⟩
      · exact absurd rfl hb.ne
      · simp at heq
  | cons e es ih =>
    obtain ⟨he, hes⟩ := List.forall_mem_cons.1 htext
    -- behind the first element, the places up to it are passed
    have hrest : ∀ q r, plan q = some r →
        q.Before (p.advance e.text) ∨ Site (p.advance e.text) es q r := by
      intro q r hq
      rcases hsite q r hq with hb | ⟨es₁, es₂, heq, hpos, hnext⟩
      · exact .inl (hb.trans (p.before_advance he))
      · cases es₁ with
        | nil =>
          rw [Element.textL_nil, Pos.advance_nil] at hpos
          rw [hpos]
          exact .inl (p.before_advance he)
        | cons e₁ es₁ =>
          obtain ⟨rfl, rfl⟩ := List.cons.inj heq
          rw [Element.textL_cons, Pos.advance_append] at hpos
          exact .inr ⟨es₁, es₂, rfl, hpos, hnext⟩
    obtain ⟨es', hes'⟩ := ih hes hrest
    cases hp : plan p with
    | some r =>
      rcases hsite p r hp with hb | ⟨es₁, es₂, heq, hpos, hnext⟩
      · exact absurd rfl hb.ne
      cases es₁ with
      | cons e₁ es₁ =>
        obtain ⟨rfl, -⟩ := List.cons.inj heq
        exact absurd hpos (p.before_advance (by simp [he])).ne
      | nil =>
        obtain ⟨rfl, rfl⟩ := List.cons.inj heq
        obtain ⟨hold, hnew, hword⟩ := hname p r hp
        exact ⟨_, .rename hp hold hnew hword hnext hes'⟩
    | none =>
      refine ⟨e :: es', .keep he ?_ hes'⟩
      rintro a₁ a₂ ha hne
      cases hq : plan (p.advance a₁) with
      | none => rfl
      | some r =>
        exfalso
        rcases hsite _ r hq with hb | ⟨es₁, es₂, heq, hpos, -⟩
        · by_cases ha₁ : a₁ = []
          · exact absurd rfl (ha₁ ▸ hb).ne
          · exact absurd rfl (hb.trans (p.before_advance ha₁)).ne
        · cases es₁ with
          | nil =>
            rw [Element.textL_nil, Pos.advance_nil] at hpos
            rw [hpos, hp] at hq
            exact absurd hq (by simp)
          | cons e₁ es₁ =>
            obtain ⟨rfl, -⟩ := List.cons.inj heq
            rw [Element.textL_cons, ha, List.append_assoc, Pos.advance_append] at hpos
            exact absurd hpos ((p.advance a₁).before_advance (by simp [hne])).ne

namespace Along

variable {plan : Plan} {tail : List Element} {p : Pos} {es es' : List Element}

theorem walk (h : Along plan tail p es es') (htail : tail = [] ∨ tail = [⟨.blank, [byte '\n']⟩]) :
    plan.walk p 0 (Element.textL es ++ Element.textL tail) = Element.textL es' := by
  induction h with
  | @done p quiet =>
    rcases htail with rfl | rfl
    · rfl
    · simp only [Element.textL_nil, Element.textL_cons, List.nil_append, List.append_nil, Plan.walk,
        quiet]
  | keep text quiet rest ih =>
    rw [Element.textL_cons, List.append_assoc, Plan.walk_keep quiet, ih, Element.textL_cons]
  | rename planned hold hnew word hnext rest ih =>
    rw [Element.textL_cons, List.append_assoc, Plan.walk_rename planned hold.ne_nil, ih,
      Element.textL_cons]

theorem renamed (h : Along plan tail p es es') (htail : tail = [] ∨ tail = [⟨.blank, [byte '\n']⟩]) :
    Renamed es es' := by
  induction h with
  | done quiet =>
    rcases htail with rfl | rfl
    · exact .nil
    · exact .newline
  | keep text quiet rest ih => exact .keep _ ih
  | rename planned hold hnew word hnext rest ih => exact .rename word hnew hnext ih

end Along

end Plan

/-! ### Events -/

theorem IsName.line_advance {name : Bytes} (h : IsName name) (p : Pos) :
    (p.advance name).line = p.line := by
  rw [Pos.advance_of_no_newline p fun hmem => absurd (h.run.forall_mem _ hmem) (by decide)]

theorem Event.ofBlockDoc_relabel (name name' : Ident → Bytes) {p p' : Pos} (hp : p'.line = p.line)
    (lines : List Bytes) :
    (ofBlockDoc p' lines).map (relabel name Pos.lineOnly) =
      (ofBlockDoc p lines).map (relabel name' Pos.lineOnly) := by
  cases lines with
  | nil => rfl
  | cons first rest =>
    simp only [ofBlockDoc, List.map_cons, relabel, Token.relabel, Pos.lineOnly, hp]
    refine congrArg (_ :: ·) (List.map_congr_left fun e he => ?_)
    obtain ⟨i, hi, rfl⟩ := List.mem_mapIdx.1 he
    simp [relabel, Token.relabel]

/-- The events of an element depend on its line, and on its column only when it is renamed. -/
theorem Event.ofPiece_relabel {name name' : Ident → Bytes} {p p' : Pos} (hp : p'.line = p.line)
    {text : Bytes} {piece : Piece} (hname : piece = .ident → name ⟨text, p'⟩ = name' ⟨text, p⟩) :
    (ofPiece p' text piece).map (relabel name Pos.lineOnly) =
      (ofPiece p text piece).map (relabel name' Pos.lineOnly) := by
  have hline : p'.lineOnly = p.lineOnly := by rw [Pos.lineOnly, hp, Pos.lineOnly]
  cases piece with
  | blockComment => exact ofBlockDoc_relabel name name' hp _
  | lineComment =>
    simp only [ofPiece]
    split <;> simp [relabel, Token.relabel, hline]
  | ident => simp [ofPiece, relabel, Token.relabel, hline, hname rfl]
  | punct joint =>
    simp only [ofPiece, List.map_map]
    refine List.map_congr_left fun c _ => ?_
    simp [relabel, Token.relabel, hline]
  | _ => simp [ofPiece, relabel, Token.relabel, hline]

theorem Element.events_relabel {p p' : Pos} (hp : p'.line = p.line) (es : List Element) :
    (events p' es).map (Event.relabel (·.text) Pos.lineOnly) =
      (events p es).map (Event.relabel (·.text) Pos.lineOnly) := by
  induction es generalizing p p' with
  | nil => rfl
  | cons e es ih =>
    have hfirst := @Event.ofPiece_relabel (·.text) (·.text) p p' hp e.text e.piece fun _ => rfl
    simp only [events, List.map_append, hfirst, ih (Pos.line_advance hp e.text)]

/-- The events of the renamed elements are the events before, up to columns and with the new
names. -/
theorem Plan.Along.events {plan : Plan} {tail : List Element} {p p' : Pos} {es es' : List Element}
    (h : Along plan tail p es es') (htail : tail = [] ∨ tail = [⟨.blank, [byte '\n']⟩])
    (hp : p'.line = p.line) :
    (Element.events p' es').map (Event.relabel (·.text) Pos.lineOnly) =
      (Element.events p es).map (Event.relabel plan.nameOf Pos.lineOnly) := by
  induction h generalizing p' with
  | @done p quiet =>
    rcases htail with rfl | rfl <;> rfl
  | @keep p e es es' text quiet rest ih =>
    have hnone : plan p = none := quiet [] e.text rfl text
    simp only [Element.events, List.map_append]
    rw [ih (Pos.line_advance hp e.text), Event.ofPiece_relabel hp fun _ => ?_]
    simp [nameOf, hnone]
  | @rename p r es es' planned hold hnew word hnext rest ih =>
    have hline : (p'.advance r.newName.text).line = (p.advance r.name).line := by
      rw [hnew.line_advance, hold.line_advance, hp]
    simp only [Element.events, List.map_append]
    rw [ih hline]
    simp [Event.ofPiece, Event.relabel, Token.relabel, nameOf, planned, Pos.lineOnly, hp]

end GetterRename
