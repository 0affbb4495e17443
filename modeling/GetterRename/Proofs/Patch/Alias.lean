import GetterRename.Proofs.Patch.ByteOrderMark
import GetterRename.Proofs.Patch.Definitions

/-!
# Aliases of definitions

The attribute of an alias is put at the head of a line, not in front of a definition.  Where the line
starts between two elements, the attribute is in the token list of that place, with the tokens of the
line behind it.  So it belongs to the definition if the line does not open a group in front of it; in a
block on one line it stands in front of the block.

* `Token.LeadsTo` — the tokens of a line in front of a place;
* `Patch.Ready.attached` — the attribute and the tokens behind it;
* `Patch.Attached`, `Patch.exists_attached` — what becomes of a record with an alias;
* `Patch.alias_before_mark`, `Patch.alias_in_comment` and others — attributes that go astray;
* `Patch.alias_before_block` — a block on one line.
-/

namespace GetterRename

/-! ### The tokens of a line -/

namespace Token

/-- The tokens are those between the head of its line and the place, and no group of them ends behind
it. -/
def LeadsTo (src : Bytes) (p : Pos) (tokens : List Token) : Prop :=
  ∃ above line below, Splits src ⟨p.line, 0⟩ above (line ++ below) ∧
    Splits src p (above ++ line) below ∧
    nest (Element.events ⟨p.line, 0⟩ line) [] [] = .ok ([], tokens.reverse)

end Token

/-- What stands on a line in front of a name is in the token list of the name, if it closes what it
opens. -/
theorem Token.exists_within_of_line {p q : Pos} {line rest : List Element} {name : Bytes}
    {front before out : List Token} {frames : List Frame} (hpq : q.line = p.line)
    (hline : nest (Element.events p line) [] [] = .ok ([], front.reverse))
    (h : nest (Element.events q (line ++ ⟨.ident, name⟩ :: rest)) frames before = .ok ([], out)) :
    ∃ front' p' after, withoutColumns front' = withoutColumns front ∧
      Within (before.reverse ++ front' ++ .ident name p' :: after) out.reverse := by
  obtain ⟨front', hfront', heq⟩ := exists_nest_of_relabel (Element.events_relabel hpq line) hline
  rw [Element.events_append] at h
  obtain ⟨frames', tokens, hnest, hrest⟩ := exists_nest_of_append h
  rw [nest_of_nest_nil hfront'] at hnest
  obtain ⟨rfl, rfl⟩ := Prod.mk.inj (Except.ok.inj hnest)
  obtain ⟨after, hwithin⟩ := (@within_of_nest _ _
    (.ident name (q.advance (Element.textL line)) :: (front'.reverse ++ before)) _ hrest).1
  refine ⟨front', q.advance (Element.textL line), after, ?_, ?_⟩
  · rw [withoutColumns, withoutColumns, relabelL_eq_map, relabelL_eq_map, heq]
  · simpa using hwithin

namespace Patch

open Element (woven)

/-! ### The line of a definition -/

namespace Ready

variable {src head : Bytes} {toks : List Token} {es last : List Element} {pending : List Rename}

/-- The elements of a line in front of its definition are left as they are. -/
theorem written_line (h : Ready src toks head es last pending) {r : Rename} (hr : r ∈ pending)
    {p : Pos} (hfound : FoundAt (lines src) r p) {line : List Element}
    (hp : p = (⟨p.line, 0⟩ : Pos).advance (Element.textL line)) (htext : ∀ e ∈ line, e.text ≠ []) :
    Element.written (placed .definitions pending (lines src))
      (fronts .definitions .generate pending (lines src)) ⟨p.line, 0⟩ line = line := by
  -- the places up to the definition are on its line
  have hline : ∀ a b, Element.textL line = a ++ b →
      ((⟨p.line, 0⟩ : Pos).advance a).line = p.line := by
    intro a b hab
    have hlow := (⟨p.line, 0⟩ : Pos).le_line_advance a
    have hhigh := ((⟨p.line, 0⟩ : Pos).advance a).le_line_advance b
    rw [← Pos.advance_append, ← hab, ← hp] at hhigh
    exact Nat.le_antisymm hhigh hlow
  refine Element.written_of_quiet fun es₁ e es₂ hsplit => ⟨fun a₁ a₂ ha hne => ?_, ?_⟩
  · have hab : Element.textL line = (Element.textL es₁ ++ a₁) ++ (a₂ ++ Element.textL es₂) := by
      simp [hsplit, ha]
    rw [← Pos.advance_append]
    cases hplan : placed .definitions pending (lines src)
        ((⟨p.line, 0⟩ : Pos).advance (Element.textL es₁ ++ a₁)) with
    | none => rfl
    | some s =>
      obtain ⟨hs, hat⟩ := (placed_eq_some_iff h.apart).1 hplan
      have hsame : s.line = r.line := by
        obtain ⟨_, _, _, hl, -⟩ := hfound
        obtain ⟨_, _, _, hl', -⟩ := hat
        rw [hl, hl', hline _ _ hab]
      have hmem : s ∈ Rename.onLine r.line pending := List.mem_filter.2 ⟨hs, by simpa using hsame⟩
      rw [onLine_eq_singleton h.apart hr, List.mem_singleton] at hmem
      have hplace := (hmem ▸ hat).unique hfound
      have hbefore := Pos.before_advance ((⟨p.line, 0⟩ : Pos).advance (Element.textL es₁ ++ a₁))
        (List.append_ne_nil_of_left_ne_nil hne (Element.textL es₂))
      rw [← Pos.advance_append, ← hab, ← hp] at hbefore
      exact absurd hplace hbefore.ne
  · have hab : Element.textL line = Element.textL (es₁ ++ [e]) ++ Element.textL es₂ := by
      simp [hsplit]
    have hne : Element.textL (es₁ ++ [e]) ≠ [] := by
      have := htext e (by simp [hsplit])
      simp [this]
    have hbefore := (⟨p.line, 0⟩ : Pos).before_advance hne
    have hl := hline _ _ hab
    rw [fronts, if_neg]
    unfold Pos.Before at hbefore
    simp only at hbefore
    omega

/-- What is put in front of a line stays on it. -/
theorem line_advance_fronts (h : Ready src toks head es last pending) (p q : Pos) :
    (q.advance (Element.textL (fronts .definitions .generate pending (lines src) p))).line =
      q.line := by
  by_cases hp : fronts .definitions .generate pending (lines src) p = []
  · rw [hp]
    rfl
  · obtain ⟨⟨name, hname⟩, -⟩ := h.exists_head hp
    rw [hname, textL_aliasElements, Pos.advance_of_no_newline _ (newline_not_mem_aliasAttribute name)]

/-- The line of a definition behind its attribute, if its elements are known in front of the name. -/
theorem written_definition (h : Ready src toks head es last pending) {r : Rename}
    (hr : r ∈ pending) {p : Pos} (hfound : FoundAt (lines src) r p)
    (hsite : Plan.Site ⟨1, head.length⟩ (es ++ last) p r) {above line below : List Element}
    (hsplit : es ++ last = above ++ (line ++ below))
    (habove : ⟨p.line, 0⟩ = (⟨1, head.length⟩ : Pos).advance (Element.textL above))
    (hline : p = (⟨1, head.length⟩ : Pos).advance (Element.textL (above ++ line))) :
    ∃ rest, Element.written (placed .definitions pending (lines src))
      (fronts .definitions .generate pending (lines src)) ⟨p.line, 0⟩ (line ++ below) =
        line ++ ⟨.ident, r.newName.text⟩ :: rest := by
  obtain ⟨es₁, es₂, hes, hp, -⟩ := hsite
  have hreads := (h.reads.renamed (@Renamed.append_newline es last h.newline)).1
  have hsite : Reads (Element.textL (es ++ last)) (es₁ ++ ⟨.ident, r.name⟩ :: es₂) := by
    rw [← hes]
    exact hreads
  have hfront : Reads (Element.textL (es ++ last)) (above ++ line ++ below) := by
    rw [List.append_assoc, ← hsplit]
    exact hreads
  obtain ⟨rfl, rfl⟩ := hfront.split_unique hsite (hline.symm.trans hp)
  have hplace : p = (⟨p.line, 0⟩ : Pos).advance (Element.textL line) := by
    rw [habove, ← Pos.advance_append, ← Element.textL_append]
    exact hline
  have hplan := (placed_eq_some_iff h.apart).2 ⟨hr, hfound⟩
  have htext : ∀ e ∈ line, e.text ≠ [] := fun e he => hsite.text_ne_nil e (by simp [he])
  rw [Element.written_append, h.written_line hr hfound hplace htext, ← hplace, Element.written,
    Element.turned_of_planned hplan (h.names r hr).1.ne_nil]
  exact ⟨_, rfl⟩

/-- **The attribute of a definition** is put at the head of its line. It is in the token list that the
line starts in, and behind it come the tokens of the line. -/
theorem attached (h : Ready src toks head es last pending) {r : Rename} (hr : r ∈ pending)
    (halias : r.needsDocAlias = true) {toks' : List Token}
    (hnest : Token.nest (Element.events ⟨1, head.length⟩
      (aliased src pending ⟨1, head.length⟩ (es ++ last))) [] [] = .ok ([], toks'.reverse)) :
    ∃ p : Pos, r.line = p.line ∧ r.column = p.col ∧
      (∃ before after, Token.Within (before ++ aliasTokens r.name ⟨p.line, 0⟩ ++ after) toks') ∧
      ∀ front, Token.LeadsTo src p front → ∃ before front' p' after,
        Token.withoutColumns front' = Token.withoutColumns front ∧
          Token.Within (before ++ aliasTokens r.name ⟨p.line, 0⟩ ++ front' ++
            .ident r.newName.text p' :: after) toks' := by
  obtain ⟨p, hcol, hsite, hfound⟩ := h.sites r hr halias
  have hl : r.line = p.line := by
    obtain ⟨_, _, _, hl, -⟩ := hfound
    exact hl
  obtain ⟨above, below, hsplit, hplace, hstart⟩ := h.heads r hr halias p.line hl
  have hfront := @fronts_of_found .generate pending (lines src) h.apart p r hr hfound
    (by simp [writesAlias, DocAlias.mustGenerate, halias])
  obtain ⟨es₀, haliased, hpos⟩ :=
    (hsplit ▸ h.turns).exists_lineStart h.line_advance_fronts hstart hplace
  rw [aliased, hsplit, haliased, Element.events_append, hpos, woven, hfront,
    Element.events_append] at hnest
  obtain ⟨frames, before, -, hnest⟩ := Token.exists_nest_of_append hnest
  obtain ⟨frames', tokens, hattribute, hnest⟩ := Token.exists_nest_of_append hnest
  rw [nest_aliasElements] at hattribute
  obtain ⟨rfl, rfl⟩ := Prod.mk.inj (Except.ok.inj hattribute)
  refine ⟨p, hl, hcol, ?_, fun front hfront => ?_⟩
  · obtain ⟨after, hwithin⟩ := (Token.within_of_nest hnest).1
    exact ⟨before.reverse, after, by simpa using hwithin⟩
  · obtain ⟨above', line, below', ⟨hreads, habove⟩, ⟨-, hline⟩, hfront⟩ := hfront
    rw [h.body] at hreads
    rw [h.start] at habove hline
    have hes : es = above' ++ (line ++ below') := h.reads.unique hreads
    -- the head of the line is one place
    have hsplit' : es ++ last = above' ++ (line ++ (below' ++ last)) := by
      rw [hes]
      simp only [List.append_assoc]
    have hgrown := (h.reads.renamed (@Renamed.append_newline es last h.newline)).1
    have hbelow : below = line ++ (below' ++ last) := by
      refine (Reads.split_unique (hsplit ▸ hgrown) ?_ (hplace.symm.trans habove)).2
      rw [← hsplit']
      exact hsplit ▸ hgrown
    obtain ⟨rest, hrest⟩ := h.written_definition hr hfound hsite hsplit' habove hline
    rw [hbelow, hrest] at hnest
    obtain ⟨front', p', after, heq, hwithin⟩ := Token.exists_within_of_line (by
      rw [textL_aliasElements, Pos.advance_of_no_newline _ (newline_not_mem_aliasAttribute r.name)])
      hfront hnest
    refine ⟨before.reverse, front', p', after, heq, by simpa using hwithin⟩

end Ready

/-! ### Records -/

/-- The token trees `toks` have the attribute of a definition that stood at the place `p` of the text:
it is in one of their lists, and so are behind it, one after the other, the tokens of the line in
front of the name, `fn` and the new name, if the first of these do not leave a group open. -/
structure Attached (src : Bytes) (name newName : Bytes) (p : Pos) (toks : List Token) : Prop where
  within : ∃ before after, Token.Within (before ++ aliasTokens name ⟨p.line, 0⟩ ++ after) toks
  definition : ∀ front q, Token.LeadsTo src p (front ++ [.ident "fn" q]) →
    ∃ before front' q' p' after, Token.withoutColumns front' = Token.withoutColumns front ∧
      Token.Within (before ++ aliasTokens name ⟨p.line, 0⟩ ++ front' ++
        .ident "fn" q' :: .ident newName p' :: after) toks

theorem Ready.attached_of_nest {src head : Bytes} {toks : List Token} {es last : List Element}
    {pending : List Rename} (h : Ready src toks head es last pending) {r : Rename}
    (hr : r ∈ pending) (halias : r.needsDocAlias = true) {toks' : List Token}
    (hnest : Token.nest (Element.events ⟨1, head.length⟩
      (aliased src pending ⟨1, head.length⟩ (es ++ last))) [] [] = .ok ([], toks'.reverse)) :
    ∃ p : Pos, r.line = p.line ∧ r.column = p.col ∧
      Attached src r.name r.newName.text p toks' := by
  obtain ⟨p, hl, hcol, hattribute, hdefinition⟩ := h.attached hr halias hnest
  refine ⟨p, hl, hcol, hattribute, fun front q hfront => ?_⟩
  obtain ⟨before, tokens, p', after, heq, hwithin⟩ := hdefinition _ hfront
  -- the last token of the line is `fn` again
  simp only [Token.withoutColumns, Token.relabelL_eq_map, List.map_append] at heq
  obtain ⟨front', rest, rfl, hfront', hrest⟩ := List.map_eq_append_iff.1 heq
  obtain ⟨t, rest, rfl, ht, hrest⟩ := List.map_eq_cons_iff.1 hrest
  obtain rfl := List.map_eq_nil_iff.1 hrest
  obtain ⟨q', rfl⟩ : ∃ q', t = .ident "fn" q' := by
    cases t <;> simp [Token.relabel] at ht ⊢
    exact ht.1
  refine ⟨before, front', q', p', after, ?_, by simpa using hwithin⟩
  simpa only [Token.withoutColumns, Token.relabelL_eq_map] using hfront'

theorem exists_output_of_record {src : Bytes} {ledger : Ledger} {docAlias : DocAlias}
    {record : Record} (h : record ∈ (apply src ledger docAlias).records) :
    ∃ out, (apply src ledger docAlias).output = some out := by
  simp only [apply_eq] at h ⊢
  rw [if_neg]
  · exact ⟨_, rfl⟩
  · intro hnone
    obtain ⟨c, hc, hrecord⟩ := List.mem_flatMap.1 h
    have happlied := List.flatMap_eq_nil_iff.1 hnone c hc
    rw [Change.records, happlied] at hrecord
    exact absurd hrecord List.not_mem_nil

/-! ### Behind a byte order mark -/

section Marked

variable {src : Bytes}

theorem splits_marked (h : Bytes.startsWith src Event.byteOrderMark = false) {p : Pos}
    {above below : List Element} :
    Token.Splits (Event.byteOrderMark ++ src) p above below ↔ Token.Splits src p above below := by
  constructor
  · rintro ⟨hreads, hplace⟩
    rw [Token.body_marked h] at hreads
    rw [Token.start_marked h] at hplace
    exact ⟨hreads, hplace⟩
  · rintro ⟨hreads, hplace⟩
    refine ⟨?_, ?_⟩
    · rwa [Token.body_marked h]
    · rwa [Token.start_marked h]

theorem foundAt_marked {r : Rename} {p : Pos} (hr : r.line ≠ 1) (h : FoundAt (lines src) r p) :
    FoundAt (lines (Event.byteOrderMark ++ src)) r p := by
  obtain ⟨i, text, hi, hl, htext, hplace⟩ := h
  cases hlines : lines src with
  | nil =>
    rw [hlines] at htext
    exact nomatch htext
  | cons first rest =>
    obtain ⟨j, rfl⟩ : ∃ j, i = j + 1 := Nat.exists_eq_succ_of_ne_zero (by omega)
    refine ⟨j + 1, text, hi, hl, ?_, hplace⟩
    rw [lines_marked hlines]
    rwa [hlines] at htext

theorem Aliasable.of_marked (hbom : Bytes.startsWith src Event.byteOrderMark = false)
    {pending : List Rename} (hline : ∀ r ∈ pending, r.line ≠ 1)
    (h : Aliasable (Event.byteOrderMark ++ src) pending) : Aliasable src pending where
  mark := fun hmark => nomatch hbom.symm.trans hmark
  names := h.names
  docs := by
    intro r hr hcolumn p hp
    obtain ⟨above, e, below, q, a, c, hsplits, hrest⟩ :=
      h.docs r hr hcolumn p (foundAt_marked (hline r hr) hp)
    exact ⟨above, e, below, q, a, c, (splits_marked hbom).1 hsplits, hrest⟩
  starts := by
    intro r hr halias k hk
    obtain ⟨above, below, hsplits, habove⟩ := h.starts r hr halias k hk
    exact ⟨above, below, (splits_marked hbom).1 hsplits, habove⟩

theorem Attached.marked (hbom : Bytes.startsWith src Event.byteOrderMark = false)
    {name newName : Bytes} {p : Pos} {toks : List Token} (h : Attached src name newName p toks) :
    Attached (Event.byteOrderMark ++ src) name newName p toks where
  within := h.within
  definition := by
    rintro front q ⟨above, line, below, hsplits, hplace, hline⟩
    exact h.definition front q
      ⟨above, line, below, (splits_marked hbom).1 hsplits, (splits_marked hbom).1 hplace, hline⟩

end Marked

/-! ### Aliases -/

theorem exists_attached_of_unmarked {path src : Bytes} {mode : Mode} {toks : List Token}
    {c : Analysis} (hbom : Bytes.startsWith src Event.byteOrderMark = false)
    (hlex : Token.lex src = .ok toks)
    (hrun : Analysis.run path .definitions mode (Outline.read toks) = c) (herror : c.error = none)
    (haliasable : Aliasable src c.ledger.pending) {record : Record}
    (hrecord : record ∈ (apply src c.ledger .generate).records)
    (halias : record.docAlias = true) :
    ∃ out toks', (apply src c.ledger .generate).output = some out ∧
      Bytes.startsWith out Event.byteOrderMark = false ∧ Token.lex out = .ok toks' ∧
      ∃ r ∈ c.ledger.pending, record = Record.ofRename r true ∧ ∃ p : Pos, r.line = p.line ∧
        r.column = p.col ∧ Attached src record.name record.newName p toks' := by
  subst hrun
  obtain ⟨head, es, last, hready⟩ := exists_ready hbom hlex herror haliasable
  have htool : (Analysis.run path .definitions mode (Outline.read toks)).ledger.tool = .definitions :=
    Analysis.record_tool _ _
  obtain ⟨out, hout⟩ := exists_output_of_record hrecord
  obtain ⟨k, s, hs, rfl⟩ := exists_span_of_record hrecord
  generalize (Analysis.run path .definitions mode (Outline.read toks)).ledger = ledger at *
  rw [htool] at hs halias ⊢
  obtain ⟨hr, hfound⟩ := (mem_spansOn_definitions hready.apart).1 hs
  have hwrites : writesAlias .definitions .generate s.rename = true := halias
  have hneeds : s.rename.needsDocAlias = true := by
    simp only [writesAlias, Bool.and_eq_true] at hwrites
    exact hwrites.2
  obtain ⟨hunmarked, toks', hlex', hnest⟩ := hready.lex_aliased htool rfl hout
  obtain ⟨p, hl, hcol, hattached⟩ := hready.attached_of_nest hr hneeds hnest
  exact ⟨out, toks', hout, hunmarked, hlex', s.rename, hr, by rw [hwrites], p, hl, hcol, hattached⟩

/-- **Aliases stand at the heads of lines.**  Where the definitions of a file can be renamed with their
aliases, the new text is read, and the attribute of each record with an alias is in the token list that
the line of its definition starts in.  If the tokens of the line in front of the name leave no group
open and end with `fn`, the renamed definition is in this list too, and these tokens are all there is
between the attribute and the name. -/
theorem exists_attached {path src : Bytes} {mode : Mode} {toks : List Token} {c : Analysis}
    (hlex : Token.lex src = .ok toks)
    (hrun : Analysis.run path .definitions mode (Outline.read toks) = c) (herror : c.error = none)
    (haliasable : Aliasable src c.ledger.pending) {record : Record}
    (hrecord : record ∈ (apply src c.ledger .generate).records)
    (halias : record.docAlias = true) :
    ∃ out toks', (apply src c.ledger .generate).output = some out ∧ Token.lex out = .ok toks' ∧
      ∃ r ∈ c.ledger.pending, record = Record.ofRename r true ∧ ∃ p : Pos, r.line = p.line ∧
        r.column = p.col ∧ Attached src record.name record.newName p toks' := by
  by_cases hbom : Bytes.startsWith src Event.byteOrderMark = false
  · obtain ⟨out, toks', hout, -, hrest⟩ :=
      exists_attached_of_unmarked hbom hlex hrun herror haliasable hrecord halias
    exact ⟨out, toks', hout, hrest⟩
  · rw [Bool.not_eq_false] at hbom
    have hline := haliasable.mark hbom
    obtain ⟨src, rfl⟩ := List.isPrefixOf_iff_prefix.1 hbom
    have hunmarked := Token.no_second_mark hlex
    rw [Token.lex_marked hunmarked] at hlex
    rw [apply_marked hline] at hrecord ⊢
    obtain ⟨out, toks', hout, hnomark, hlex', r, hr, hofRename, p, hl, hcol, hattached⟩ :=
      exists_attached_of_unmarked hunmarked hlex hrun herror
        (haliasable.of_marked hunmarked hline) hrecord halias
    refine ⟨Event.byteOrderMark ++ out, toks', ?_, ?_, r, hr, hofRename, p, hl, hcol,
      hattached.marked hunmarked⟩
    · rw [hout]
      rfl
    · rw [Token.lex_marked hnomark, hlex']

def getterText : Bytes := "impl A \x7b\npub fn get_x(&self) -> u8 \x7b 0 \x7d\n\x7d\n"

/-- The elements of a file with a getter: in front of its line, in front of its name on the line, and
from its name on. -/
def getterFile : List Element × List Element × List Element :=
  ([⟨.ident, "impl"⟩, ⟨.blank, " "⟩, ⟨.ident, "A"⟩, ⟨.blank, " "⟩, ⟨.opening .brace, "\x7b"⟩,
      .newline],
    [⟨.ident, "pub"⟩, ⟨.blank, " "⟩, ⟨.ident, "fn"⟩, ⟨.blank, " "⟩],
    [⟨.ident, "get_x"⟩, ⟨.opening .paren, "("⟩, ⟨.punct false, "&"⟩, ⟨.ident, "self"⟩,
      ⟨.closing .paren, ")"⟩, ⟨.blank, " "⟩, ⟨.punct true, "-"⟩, ⟨.punct false, ">"⟩, ⟨.blank, " "⟩,
      ⟨.ident, "u8"⟩, ⟨.blank, " "⟩, ⟨.opening .brace, "\x7b"⟩, ⟨.blank, " "⟩, ⟨.literal, "0"⟩,
      ⟨.blank, " "⟩, ⟨.closing .brace, "\x7d"⟩, .newline, ⟨.closing .brace, "\x7d"⟩, .newline])

def getterTokens : List Token :=
  [.ident "impl" ⟨1, 0⟩, .ident "A" ⟨1, 5⟩,
    .group .brace
      [.ident "pub" ⟨2, 0⟩, .ident "fn" ⟨2, 4⟩, .ident "get_x" ⟨2, 7⟩,
        .group .paren [.punct (byte '&') false ⟨2, 13⟩, .ident "self" ⟨2, 14⟩] ⟨2, 12⟩,
        .punct (byte '-') true ⟨2, 20⟩, .punct (byte '>') false ⟨2, 21⟩, .ident "u8" ⟨2, 23⟩,
        .group .brace [.literal "0" ⟨2, 28⟩] ⟨2, 26⟩] ⟨1, 7⟩]

def getterRename : Rename :=
  ⟨"get_x", ⟨"x", .no, .regular⟩, 2, 7, ⟨.inherentImpl, "A", []⟩, true, true⟩

theorem run_getter :
    let c := Analysis.run "src/lib.rs" .definitions .allGetFunctions (Outline.read getterTokens)
    c.ledger = (Ledger.start "src/lib.rs" .definitions).push getterRename ∧
      c.ledger.pending = [getterRename] ∧ c.error = none := by
  decide +kernel

theorem reads_getter : Reads getterText (getterFile.1 ++ (getterFile.2.1 ++ getterFile.2.2)) := by
  let es := getterFile.1 ++ (getterFile.2.1 ++ getterFile.2.2)
  have hreads : Reads (Element.textL es) es := .of_fits (by decide +kernel)
  exact hreads

theorem aliasable_getter : Aliasable getterText [getterRename] where
  mark := by decide
  names := by
    intro r hr
    rw [List.mem_singleton.1 hr]
    let es : List Element := [⟨.ident, "x"⟩]
    have hreads : Reads (Element.textL es) es := .of_fits (by decide +kernel)
    exact ⟨"x", ⟨1, 0⟩, Token.lex_eq_ok_iff.2 ⟨es, hreads, rfl⟩⟩
  docs := by
    intro r hr hcolumn
    rw [List.mem_singleton.1 hr] at hcolumn
    exact absurd hcolumn (by decide)
  starts := by
    intro r hr _ k hk
    rw [List.mem_singleton.1 hr] at hk
    obtain rfl : 2 = k := Int.ofNat.inj hk
    exact ⟨_, _, ⟨reads_getter, rfl⟩, .inr ⟨getterFile.1.dropLast, rfl⟩⟩

theorem exists_attached_getter :
    ∃ toks', Token.lex
        "impl A \x7b\n#[doc(alias = \"get_x\")] pub fn x(&self) -> u8 \x7b 0 \x7d\n\x7d\n" = .ok toks' ∧
      ∃ before front' q' p' after,
        Token.withoutColumns front' = Token.withoutColumns [.ident "pub" ⟨2, 0⟩] ∧
          Token.Within (before ++ aliasTokens "get_x" ⟨2, 0⟩ ++ front' ++
            .ident "fn" q' :: .ident "x" p' :: after) toks' := by
  obtain ⟨hledger, hpending, herror⟩ := run_getter
  have hlex : Token.lex getterText = .ok getterTokens :=
    Token.lex_eq_ok_iff.2 ⟨_, reads_getter, rfl⟩
  obtain ⟨out, toks', hout, hlex', r, hr, -, p, hl, hcol, hattached⟩ :=
    @exists_attached "src/lib.rs" getterText .allGetFunctions getterTokens _ hlex rfl herror
      (by rw [hpending]; exact aliasable_getter) (Record.ofRename getterRename true)
      (by rw [hledger]; exact List.mem_singleton.2 (by decide +kernel)) rfl
  have htext : out =
      "impl A \x7b\n#[doc(alias = \"get_x\")] pub fn x(&self) -> u8 \x7b 0 \x7d\n\x7d\n" := by
    rw [hledger] at hout
    refine Option.some.inj (hout.symm.trans ?_)
    decide +kernel
  rw [hpending, List.mem_singleton] at hr
  subst hr
  obtain ⟨l, col⟩ := p
  obtain rfl : 2 = l := Int.ofNat.inj hl
  obtain rfl : 7 = col := Int.ofNat.inj hcol
  have hleads : Token.LeadsTo getterText ⟨2, 7⟩ ([.ident "pub" ⟨2, 0⟩] ++ [.ident "fn" ⟨2, 4⟩]) :=
    ⟨getterFile.1, getterFile.2.1, getterFile.2.2, ⟨reads_getter, rfl⟩, ⟨reads_getter, rfl⟩, rfl⟩
  exact ⟨toks', htext ▸ hlex', hattached.definition _ _ hleads⟩

/-! ### Aliases that go astray -/

/-- The mark of a file that starts with a definition: the attribute is put in front of the mark, which
is no token behind it. -/
theorem alias_before_mark :
    let out : Bytes := "#[doc(alias = \"get_x\")] " ++ Event.byteOrderMark ++
      "impl A \x7b fn x(&self) -> u8 \x7b 0 \x7d \x7d\n"
    Run.rewrite? .definitions .allGetFunctions .generate
        (Event.byteOrderMark ++ "impl A \x7b fn get_x(&self) -> u8 \x7b 0 \x7d \x7d\n") =
      some (out, [⟨1, "get_x", "x", "regular", "A", true⟩]) ∧
      (Token.lex out).toOption.isNone = true := by
  decide +kernel

/-- A new name that is no identifier: it is a literal behind the attribute. -/
theorem alias_before_numeral :
    let out : Bytes :=
      "impl A \x7b\n#[doc(alias = \"get_42\")] pub fn 42(&self) -> u8 \x7b 0 \x7d\n\x7d\n"
    Run.rewrite? .definitions .allGetFunctions .generate
        "impl A \x7b\npub fn get_42(&self) -> u8 \x7b 0 \x7d\n\x7d\n" =
      some (out, [⟨2, "get_42", "42", "regular", "A", true⟩]) ∧
      (Token.lex out).toOption.any
        (fun toks => (Token.namesL toks).all (·.text != Bytes.ofString "42")) = true := by
  decide +kernel

/-- The name of a definition in documentation is found behind the comment, where the new name makes a
raw string of the literal behind it. -/
theorem alias_of_unread :
    let out : Bytes := "/**\n```\nfn/**/get_r(&self) -> u8 \x7b 0 \x7d */ m! \x7b fn r#\"a\" \x7d\n" ++
      "/// ```\nimpl A \x7b\n#[doc(alias = \"get_x\")] fn x(&self) -> u8 \x7b 0 \x7d\n\x7d\n"
    Run.rewrite? .definitions .allGetFunctions .generate
        ("/**\n```\nfn/**/get_r(&self) -> u8 \x7b 0 \x7d */ m! \x7b fn get_r#\"a\" \x7d\n" ++
          "/// ```\nimpl A \x7b\nfn get_x(&self) -> u8 \x7b 0 \x7d\n\x7d\n") =
      some (out, [⟨3, "get_r", "r", "regular", "documentation", false⟩,
        ⟨6, "get_x", "x", "regular", "A", true⟩]) ∧
      (Token.lex out).toOption.isNone = true := by
  decide +kernel

/-- A comment that ends on the line of a definition has the attribute in it. -/
theorem alias_in_comment :
    let out : Bytes :=
      "impl A \x7b /*\n#[doc(alias = \"get_x\")] */ fn x(&self) -> u8 \x7b 0 \x7d\n\x7d\n"
    Run.rewrite? .definitions .allGetFunctions .generate
        "impl A \x7b /*\n*/ fn get_x(&self) -> u8 \x7b 0 \x7d\n\x7d\n" =
      some (out, [⟨2, "get_x", "x", "regular", "A", true⟩]) ∧
      (Token.lex out).toOption.any
        (fun toks => (Token.namesL toks).all (·.text != Bytes.ofString "doc")) = true := by
  decide +kernel

/-- The elements of a getter on the line of its block. -/
def oneLineElements (name : Bytes) : List Element :=
  [⟨.ident, "impl"⟩, ⟨.blank, " "⟩, ⟨.ident, "A"⟩, ⟨.blank, " "⟩, ⟨.opening .brace, "\x7b"⟩,
    ⟨.blank, " "⟩, ⟨.ident, "fn"⟩, ⟨.blank, " "⟩, ⟨.ident, name⟩, ⟨.opening .paren, "("⟩,
    ⟨.punct false, "&"⟩, ⟨.ident, "self"⟩, ⟨.closing .paren, ")"⟩, ⟨.blank, " "⟩,
    ⟨.punct true, "-"⟩, ⟨.punct false, ">"⟩, ⟨.blank, " "⟩, ⟨.ident, "u8"⟩, ⟨.blank, " "⟩,
    ⟨.opening .brace, "\x7b"⟩, ⟨.blank, " "⟩, ⟨.literal, "0"⟩, ⟨.blank, " "⟩,
    ⟨.closing .brace, "\x7d"⟩, ⟨.blank, " "⟩, ⟨.closing .brace, "\x7d"⟩, .newline]

def oneLineTokens (name : Bytes) (c : Nat) : List Token :=
  let d := c + 12 + name.length
  [.ident "impl" ⟨1, c⟩, .ident "A" ⟨1, c + 5⟩,
    .group .brace
      [.ident "fn" ⟨1, c + 9⟩, .ident name ⟨1, c + 12⟩,
        .group .paren [.punct (byte '&') false ⟨1, d + 1⟩, .ident "self" ⟨1, d + 2⟩] ⟨1, d⟩,
        .punct (byte '-') true ⟨1, d + 8⟩, .punct (byte '>') false ⟨1, d + 9⟩,
        .ident "u8" ⟨1, d + 11⟩, .group .brace [.literal "0" ⟨1, d + 16⟩] ⟨1, d + 14⟩] ⟨1, c + 7⟩]

theorem run_oneLine :
    let c := Analysis.run "src/lib.rs" .definitions .allGetFunctions
      (Outline.read (oneLineTokens "get_x" 0))
    c.error = none ∧ c.ledger = (Ledger.start "src/lib.rs" .definitions).push
      ⟨"get_x", ⟨"x", .no, .regular⟩, 1, 12, ⟨.inherentImpl, "A", []⟩, true, true⟩ := by
  constructor <;> decide +kernel

/-- **A block on one line.**  The attribute stands in front of the block, and no token list has both its
hash and the `fn` of the definition. -/
theorem alias_before_block :
    let c := Analysis.run "src/lib.rs" .definitions .allGetFunctions
      (Outline.read (oneLineTokens "get_x" 0))
    let p := apply "impl A \x7b fn get_x(&self) -> u8 \x7b 0 \x7d \x7d\n" c.ledger .generate
    Token.lex "impl A \x7b fn get_x(&self) -> u8 \x7b 0 \x7d \x7d\n" =
        .ok (oneLineTokens "get_x" 0) ∧
      c.error = none ∧ p.records = [⟨1, "get_x", "x", "regular", "A", true⟩] ∧
      p.output = some
        "#[doc(alias = \"get_x\")] impl A \x7b fn x(&self) -> u8 \x7b 0 \x7d \x7d\n" ∧
      Token.lex "#[doc(alias = \"get_x\")] impl A \x7b fn x(&self) -> u8 \x7b 0 \x7d \x7d\n" =
        .ok (aliasTokens "get_x" ⟨1, 0⟩ ++ oneLineTokens "x" 24) ∧
      ∀ list, Token.Within list (aliasTokens "get_x" ⟨1, 0⟩ ++ oneLineTokens "x" 24) →
        ∀ t ∈ list, t.isPunct '#' = true → ∀ u ∈ list, u.isIdent "fn" = false := by
  obtain ⟨herror, hledger⟩ := run_oneLine
  simp only [hledger]
  refine ⟨?_, herror, by decide +kernel, by decide +kernel, ?_, fun list hlist t ht hhash u hu => ?_⟩
  · let es := oneLineElements "get_x"
    have hreads : Reads (Element.textL es) es := .of_fits (by decide +kernel)
    exact Token.lex_eq_ok_iff.2 ⟨es, hreads, rfl⟩
  · let es := aliasElements "get_x" ++ oneLineElements "x"
    have hreads : Reads (Element.textL es) es := .of_fits (by decide +kernel)
    exact Token.lex_eq_ok_iff.2 ⟨es, hreads, rfl⟩
  · -- the only hash stands at the top, where no `fn` is
    have htop : ∀ u ∈ aliasTokens "get_x" ⟨1, 0⟩ ++ oneLineTokens "x" 24,
        u.isIdent "fn" = false := by decide
    rcases hlist.eq_or_inside with rfl | ⟨d, inner, p, hgroup, hinner⟩
    · exact htop u hu
    · obtain ⟨joint, q, rfl⟩ : ∃ joint q, t = .punct (byte '#') joint q := by
        cases t <;> simp_all [Token.isPunct]
      have hleaf := hinner.leaf_mem rfl ht
      have hbytes : byte '#' ≠ byte '=' ∧ byte '#' ≠ byte '&' ∧ byte '#' ≠ byte '-' ∧
          byte '#' ≠ byte '>' := by decide
      simp only [aliasTokens, oneLineTokens, List.cons_append, List.nil_append, List.mem_cons,
        List.not_mem_nil, reduceCtorEq, or_false, false_or, Token.group.injEq] at hgroup
      rcases hgroup with ⟨-, rfl, -⟩ | ⟨-, rfl, -⟩ <;>
        simp [Token.marks, hbytes] at hleaf

end Patch

end GetterRename
