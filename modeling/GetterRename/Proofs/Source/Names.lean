import GetterRename.Proofs.Source.Nesting

/-!
# The names of token trees

The identifiers of token trees at any depth, in the order of the text.  A name is *safe* when the
token behind it in its list is no hazard: then no quote and no hash stands right behind its bytes.

* `Token.namesL`, `Token.safeNamesL` — the names and the safe names of a list of token trees;
* `Token.pairwise_namesL` — names stand at increasing places;
* `Token.safeNamesL_append`, `Token.safeNamesL_sublist_of_suffix` — safe names of parts of a list;
* `Token.exists_elements_of_mem` — the element of a safe name.
-/

namespace GetterRename

open scoped List

namespace Token

mutual

def names : Token → List Ident
  | ident text p => [⟨text, p⟩]
  | group _ tokens _ => namesL tokens
  | _ => []

/-- The identifiers of a list of token trees, at any depth. -/
def namesL : List Token → List Ident
  | [] => []
  | t :: ts => names t ++ namesL ts

end

def isHazard : Token → Bool
  | literal _ _ => true
  | punct c _ _ => c == byte '#' || c == byte '\''
  | _ => false

mutual

/-- The names of a token tree without those in front of a hazard; `next` stands behind the tree. -/
def safeNames (next : Option Token) : Token → List Ident
  | ident text p => if next.any isHazard then [] else [⟨text, p⟩]
  | group _ tokens _ => safeNamesL tokens
  | _ => []

/-- The names of a list of token trees without those in front of a hazard. -/
def safeNamesL : List Token → List Ident
  | [] => []
  | t :: ts => safeNames ts.head? t ++ safeNamesL ts

end

@[simp] theorem namesL_nil : namesL [] = [] := rfl

@[simp] theorem namesL_cons (t : Token) (ts : List Token) : namesL (t :: ts) = names t ++ namesL ts :=
  rfl

@[simp] theorem names_group (d : Delimiter) (ts : List Token) (p : Pos) :
    names (group d ts p) = namesL ts := by
  simp [names]

@[simp] theorem safeNamesL_nil : safeNamesL [] = [] := rfl

@[simp] theorem safeNamesL_cons (t : Token) (ts : List Token) :
    safeNamesL (t :: ts) = safeNames ts.head? t ++ safeNamesL ts := rfl

@[simp] theorem safeNames_group (next : Option Token) (d : Delimiter) (ts : List Token) (p : Pos) :
    safeNames next (group d ts p) = safeNamesL ts := by
  simp [safeNames]

theorem safeNames_ident {next : Option Token} (h : next.any isHazard = false) (text : Bytes)
    (p : Pos) : safeNames next (ident text p) = [⟨text, p⟩] := by
  simp [safeNames, h]

/-! ### Parts of a list -/

theorem safeNames_sublist_names (next : Option Token) {t : Token} (h : t.isGroup = false) :
    safeNames next t <+ names t := by
  cases t with
  | ident text p =>
    simp only [safeNames, names]
    split
    · exact List.nil_sublist _
    · exact List.Sublist.refl _
  | group d ts p => simp [isGroup] at h
  | _ => simp [safeNames, names]

theorem safeNamesL_sublist (ts : List Token) : safeNamesL ts <+ namesL ts := by
  induction ts using inductionL with
  | nil => exact List.Sublist.refl _
  | leaf t ts ht ih => exact (safeNames_sublist_names ts.head? ht).append ih
  | group d inner p ts ihInner ih =>
    rw [safeNamesL_cons, safeNames_group, namesL_cons, names_group]
    exact ihInner.append ih

theorem safeNamesL_sublist_of_suffix {xs ys : List Token} (h : xs <:+ ys) :
    safeNamesL xs <+ safeNamesL ys := by
  obtain ⟨zs, rfl⟩ := h
  induction zs with
  | nil => exact List.Sublist.refl _
  | cons z zs ih => exact ih.trans (List.sublist_append_right _ _)

/-- Where no hazard starts the second part, the safe names of both parts are those of the whole. -/
theorem safeNamesL_append {xs ys : List Token} (h : ys.head?.any isHazard = false) :
    safeNamesL (xs ++ ys) = safeNamesL xs ++ safeNamesL ys := by
  induction xs with
  | nil => rfl
  | cons t ts ih =>
    have hnext : safeNames (ts ++ ys).head? t = safeNames ts.head? t := by
      cases ts with
      | nil =>
        cases t with
        | ident text p => rw [List.nil_append, safeNames_ident h, safeNames_ident rfl]
        | _ => simp [safeNames]
      | cons t' ts => rfl
    rw [List.cons_append, safeNamesL_cons, ih, hnext, safeNamesL_cons, List.append_assoc]

theorem safeNamesL_group_sublist {d : Delimiter} {inner after ts : List Token} {p : Pos}
    (h : group d inner p :: after <:+ ts) : safeNamesL inner ++ safeNamesL after <+ safeNamesL ts := by
  have := safeNamesL_sublist_of_suffix h
  rwa [safeNamesL_cons, safeNames_group] at this

end Token

/-! ### Names and places -/

def Mark.name? : Mark → Option Ident
  | .leaf (.ident text p) => some ⟨text, p⟩
  | _ => none

theorem Token.namesL_eq (ts : List Token) : namesL ts = (marksL ts).filterMap Mark.name? := by
  induction ts using inductionL with
  | nil => rfl
  | leaf t ts ht ih =>
    rw [namesL_cons, marksL_cons, marks_leaf ht, List.filterMap_append, ← ih]
    congr 1
    cases t with
    | group d inner p => simp [isGroup] at ht
    | _ => simp [names, Mark.name?]
  | group d inner p ts ihInner ih =>
    simp only [namesL_cons, names_group, marksL_cons, marks_group, List.cons_append,
      List.filterMap_cons, List.filterMap_append, Mark.name?, ← ihInner, ← ih]
    simp

namespace Element

def names (p : Pos) (es : List Element) : List Ident :=
  (events p es).filterMap fun e => e.mark.name?

theorem mem_ofPiece_names {p : Pos} {text : Bytes} {piece : Piece} {name : Ident}
    (h : name ∈ (Event.ofPiece p text piece).filterMap fun e => e.mark.name?) :
    piece = .ident ∧ name.text = text ∧ name.pos = p := by
  obtain ⟨e, he, hname⟩ := List.mem_filterMap.1 h
  obtain ⟨text', q⟩ := name
  cases e with
  | token t =>
    cases t with
    | ident name' q' =>
      obtain ⟨rfl, rfl⟩ : name' = text' ∧ q' = q := by simpa [Event.mark, Mark.name?] using hname
      exact Event.ident_of_mem_ofPiece he
    | _ => simp [Event.mark, Mark.name?] at hname
  | _ => simp [Event.mark, Mark.name?] at hname

theorem names_cons (p : Pos) (e : Element) (es : List Element) :
    names p (e :: es) =
      (if e.piece = .ident then [⟨e.text, p⟩] else []) ++ names (p.advance e.text) es := by
  rw [names, events, List.filterMap_append]
  congr 1
  obtain ⟨piece, text⟩ := e
  by_cases hp : piece = .ident
  · subst hp
    simp [Event.ofPiece, Event.mark, Mark.name?]
  · rw [if_neg hp, List.eq_nil_iff_forall_not_mem]
    intro name hname
    exact hp (mem_ofPiece_names hname).1

/-- Names stand one behind the other. -/
theorem pairwise_names {es : List Element} (h : ∀ e ∈ es, e.text ≠ []) (p : Pos) :
    (names p es).Pairwise (fun a b => a.pos.Before b.pos) ∧
      ∀ a ∈ names p es, a.pos = p ∨ p.Before a.pos := by
  induction es generalizing p with
  | nil => simp [names, events]
  | cons e es ih =>
    obtain ⟨he, hes⟩ := List.forall_mem_cons.1 h
    obtain ⟨hpair, hfrom⟩ := ih hes (p.advance e.text)
    have hadv := p.before_advance he
    have hbehind : ∀ a ∈ names (p.advance e.text) es, p.Before a.pos := by
      intro a ha
      rcases hfrom a ha with hpos | hpos
      · rw [hpos]
        exact hadv
      · exact hadv.trans hpos
    rw [names_cons]
    split
    · refine ⟨?_, ?_⟩
      · rw [List.singleton_append, List.pairwise_cons]
        exact ⟨hbehind, hpair⟩
      · intro a ha
        rcases List.mem_cons.1 ha with rfl | ha
        · exact .inl rfl
        · exact .inr (hbehind a ha)
    · exact ⟨hpair, fun a ha => .inr (hbehind a ha)⟩

end Element

namespace Token

theorem namesL_of_nest {p : Pos} {es : List Element} {toks : List Token}
    (h : nest (Element.events p es) [] [] = .ok ([], toks.reverse)) :
    namesL toks = Element.names p es := by
  rw [namesL_eq, marksL_of_nest h, List.filterMap_map]
  rfl

/-- **Names in order.**  The names of a file stand at increasing places. -/
theorem pairwise_namesL {src : Bytes} {toks : List Token} (h : lex src = .ok toks) :
    (namesL toks).Pairwise fun a b => a.pos.Before b.pos := by
  obtain ⟨es, hes, hnest⟩ := lex_eq_ok_iff.1 h
  rw [namesL_of_nest hnest]
  exact (Element.pairwise_names hes.text_ne_nil _).1

/-! ### The element of a safe name -/

/-- Whether a hazard starts the marks. -/
def startsWithHazard : List Mark → Bool
  | .leaf t :: _ => isHazard t
  | _ => false

theorem startsWithHazard_marksL {ts : List Token} {after : List Mark}
    (hts : ts.head?.any isHazard = false) (hafter : startsWithHazard after = false) :
    startsWithHazard (marksL ts ++ after) = false := by
  cases ts with
  | nil => exact hafter
  | cons t ts =>
    cases t with
    | group d inner p => simp [startsWithHazard]
    | _ =>
      rw [marksL_cons, marks_leaf rfl]
      exact hts

theorem exists_marks_of_mem {name : Ident} {ts : List Token} (h : name ∈ safeNamesL ts)
    {after : List Mark} (hafter : startsWithHazard after = false) :
    ∃ ms₁ ms₂, marksL ts ++ after = ms₁ ++ .leaf (.ident name.text name.pos) :: ms₂ ∧
      startsWithHazard ms₂ = false := by
  induction ts using inductionL generalizing after with
  | nil => simp at h
  | leaf t ts ht ih =>
    rw [safeNamesL_cons, List.mem_append] at h
    rcases h with h | h
    · cases t with
      | ident text p =>
        simp only [safeNames] at h
        split at h
        · simp at h
        · rename_i hnext
          obtain rfl := List.mem_singleton.1 h
          exact ⟨[], marksL ts ++ after, by simp [marks_leaf ht],
            startsWithHazard_marksL (by simpa using hnext) hafter⟩
      | group d inner p => simp [isGroup] at ht
      | _ => simp [safeNames] at h
    · obtain ⟨ms₁, ms₂, heq, hms⟩ := ih h hafter
      exact ⟨marks t ++ ms₁, ms₂, by simp [heq], hms⟩
  | group d inner p ts ihInner ih =>
    rw [safeNamesL_cons, safeNames_group, List.mem_append] at h
    rcases h with h | h
    · obtain ⟨ms₁, ms₂, heq, hms⟩ := @ihInner h (.closing d :: (marksL ts ++ after)) rfl
      exact ⟨.opening d p :: ms₁, ms₂, by simp [heq], hms⟩
    · obtain ⟨ms₁, ms₂, heq, hms⟩ := ih h hafter
      exact ⟨marks (.group d inner p) ++ ms₁, ms₂, by simp [heq], hms⟩

/-- A quote or a hash starts an element that is reported as a hazard. -/
theorem startsWithHazard_of_head {p : Pos} {es : List Element} {c : UInt8}
    (h : Reads (Element.textL es) es) (hc : (Element.textL es).head? = some c)
    (hz : c ∈ Piece.hazards) :
    startsWithHazard ((Element.events p es).map Event.mark) = true := by
  generalize htext : Element.textL es = text at h hc
  cases h with
  | done => simp at hc
  | @next b x y piece es element rest =>
    obtain rfl : b = c := by simpa using hc
    have hcases : b = byte '"' ∨ b = byte '\'' ∨ b = byte '#' := by
      have : ∀ b ∈ Piece.hazards, b = byte '"' ∨ b = byte '\'' ∨ b = byte '#' := by
        decide +kernel
      exact this b hz
    rw [Piece.at?_eq] at element
    rcases hcases with rfl | rfl | rfl
    · have hl : Piece.lead (byte '"') = .quote := by decide
      rw [hl] at element
      obtain ⟨m, hm⟩ := Piece.exists_of_literalOf element
      simp only [hm, Piece.literalOf, Except.ok.injEq, Prod.mk.injEq] at element
      obtain ⟨rfl, -⟩ := element
      rfl
    · have hl : Piece.lead (byte '\'') = .tick := by decide
      rw [hl] at element
      simp only [Piece.tick] at element
      split at element
      · obtain ⟨m, hm⟩ := Piece.exists_of_literalOf element
        simp only [hm, Piece.literalOf, Except.ok.injEq, Prod.mk.injEq] at element
        obtain ⟨rfl, -⟩ := element
        rfl
      split at element
      · obtain ⟨rfl, -⟩ := Prod.mk.inj (Except.ok.inj element)
        rfl
      · simp at element
    · have hl : Piece.lead (byte '#') = .punct := by decide
      rw [hl] at element
      obtain ⟨rfl, -⟩ := Prod.mk.inj (Except.ok.inj element)
      rfl

/-- **The element of a safe name.**  No quote and no hash stands behind its bytes. -/
theorem exists_elements_of_mem {p : Pos} {text : Bytes} {es : List Element} {toks : List Token}
    {name : Ident} (hreads : Reads text es)
    (hnest : nest (Element.events p es) [] [] = .ok ([], toks.reverse))
    (h : name ∈ safeNamesL toks) :
    ∃ es₁ es₂, es = es₁ ++ ⟨.ident, name.text⟩ :: es₂ ∧
      name.pos = p.advance (Element.textL es₁) ∧
      ∀ c, (Element.textL es₂).head? = some c → c ∉ Piece.hazards := by
  obtain ⟨ms₁, ms₂, heq, hms⟩ := @exists_marks_of_mem name toks h [] rfl
  rw [List.append_nil, marksL_of_nest hnest] at heq
  obtain ⟨before, rest, hsplit, -, hrest⟩ := List.map_eq_append_iff.1 heq
  obtain ⟨e, after, rfl, hmark, rfl⟩ := List.map_eq_cons_iff.1 hrest
  obtain rfl : e = .token (.ident name.text name.pos) := by
    cases e <;> simp [Event.mark] at hmark ⊢
    exact hmark
  obtain ⟨es₁, es₂, rfl, hpos, rfl⟩ := Element.split_of_events hsplit
  refine ⟨es₁, es₂, rfl, hpos, fun c hc hz => ?_⟩
  have hreads₂ : Reads (Element.textL es₂) es₂ := by
    have := @Reads.append_right text (es₁ ++ [⟨.ident, name.text⟩]) es₂ (by simpa using hreads)
    exact this
  rw [startsWithHazard_of_head hreads₂ hc hz] at hms
  exact absurd hms (by simp)

end Token

end GetterRename
