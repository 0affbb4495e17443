import GetterRename.Proofs.Patch.Placement
import GetterRename.Proofs.Patch.Tokens
import GetterRename.Proofs.Patch.Weave

/-!
# The new text of definitions

Definitions are renamed and get their aliases by lines, and a text is read by elements.  Where each
rename stands at an identifier or in a comment, and each line that gets an alias starts between two
elements, both views agree: the new text is read as the elements of the file, with new names among
them and with attributes at the heads of lines, and its delimiters match as they did.

* `Token.Splits`, `Token.IsLineStart`, `Token.InComment` — places among the elements of a file;
* `Patch.Aliasable` — when definitions can be renamed with their aliases;
* `Patch.Ready`, `Patch.exists_ready` — the same in terms of the elements;
* `Patch.Ready.output_eq` — the new text by its elements;
* `Patch.Ready.lex_aliased` — it is read as them, and it has token trees.
-/

namespace GetterRename

/-! ### Places of a file -/

namespace Token

/-- The elements of a file in front of a place and behind it. -/
structure Splits (src : Bytes) (p : Pos) (above below : List Element) : Prop where
  reads : Reads (body src) (above ++ below)
  place : p = (start src).advance (Element.textL above)

/-- The line with the number starts between two elements: at the head of the file, or behind a newline
that belongs to no literal and to no comment. -/
def IsLineStart (src : Bytes) (k : Nat) : Prop :=
  ∃ above below, Splits src ⟨k, 0⟩ above below ∧
    (above = [] ∨ ∃ front, above = front ++ [.newline])

/-- The name stands at the place, in a comment. -/
def InComment (src : Bytes) (p : Pos) (name : Bytes) : Prop :=
  ∃ above e below q a c, Splits src q above (e :: below) ∧
    (e.piece = .lineComment ∨ e.piece = .blockComment) ∧ e.text = a ++ name ++ c ∧ p = q.advance a

end Token

/-! ### Renames that can be carried out -/

namespace Patch

open Element (woven)

/-- The renames of definitions can be carried out with their aliases. -/
structure Aliasable (src : Bytes) (pending : List Rename) : Prop where
  /-- Behind a byte order mark the places on the first line are others. -/
  mark : Bytes.startsWith src Event.byteOrderMark = true → ∀ r ∈ pending, r.line ≠ 1
  names : ∀ r ∈ pending, ∃ name p, Token.lex r.newName.text = .ok [.ident name p]
  /-- What is renamed in documentation is found in a comment. -/
  docs : ∀ r ∈ pending, r.column < 0 → ∀ p, FoundAt (lines src) r p → Token.InComment src p r.name
  /-- No literal and no comment reaches into the line of a definition that gets an alias. -/
  starts : ∀ r ∈ pending, r.needsDocAlias = true → ∀ k : Nat, r.line = k → Token.IsLineStart src k

section Places

variable {path src head : Bytes} {mode : Mode} {toks : List Token} {es last : List Element}
  {r : Rename}

theorem found_of_fits (hscanned : Scanned src toks head es last)
    (hfits : r.Fits ⟨1, head.length⟩ es) :
    ∃ q : Pos, r.column = q.col ∧ Plan.Site ⟨1, head.length⟩ es q r ∧ FoundAt (lines src) r q := by
  obtain ⟨i, text, hl, -, htext, hident⟩ := isIdentAt_of_fits hscanned.toCut hfits
  obtain ⟨q, hql, hqc, hsite⟩ := hfits.site
  refine ⟨q, hqc, hsite, i, text, by omega, hql, htext, ?_⟩
  rw [hqc, Int.toNat_natCast] at hident
  simp [Line.place?, hqc, hident]

theorem site_append {p q : Pos} (hlast : last = [] ∨ last = [.newline])
    (h : Plan.Site p es q r) : Plan.Site p (es ++ last) q r := by
  obtain ⟨es₁, es₂, rfl, hpos, hnext⟩ := h
  refine ⟨es₁, es₂ ++ last, by simp, hpos, fun c hc => ?_⟩
  rw [Element.textL_append] at hc
  cases htext : Element.textL es₂ with
  | cons b text =>
    rw [htext] at hc hnext
    exact hnext c hc
  | nil =>
    rw [htext, List.nil_append] at hc
    rcases hlast with rfl | rfl
    · exact nomatch hc
    · obtain rfl := Option.some.inj hc
      decide

theorem inComment_append (hscanned : Scanned src toks head es last) {p : Pos}
    (h : Token.InComment src p r.name) :
    Plan.InComment ⟨1, head.length⟩ (es ++ last) p r := by
  obtain ⟨above, e, below, q, a, c, ⟨hreads, hplace⟩, hpiece, htext, hp⟩ := h
  rw [hscanned.body] at hreads
  rw [hscanned.start] at hplace
  obtain rfl := hscanned.reads.unique hreads
  refine ⟨above, e, below ++ last, a, c, by simp, hpiece, htext, ?_⟩
  rw [hp, hplace, Pos.advance_append]

end Places

/-- The elements from `p` on with the renames of definitions, and with their aliases at the heads of
lines. -/
def aliased (src : Bytes) (pending : List Rename) (p : Pos) (es : List Element) : List Element :=
  woven (placed .definitions pending (lines src)) (fronts .definitions .generate pending (lines src))
    p es

/-- A file whose definitions can be renamed, with their aliases in front of their lines. -/
structure Ready (src : Bytes) (toks : List Token) (head : Bytes) (es last : List Element)
    (pending : List Rename) : Prop extends Scanned src toks head es last where
  apart : pending.Pairwise fun a b => a.line ≠ b.line
  names : ∀ r ∈ pending, IsName r.name ∧ IsName r.newName.text ∧
    r.name.head?.any isWordByte = true
  places : ∀ r ∈ pending, ∀ p, FoundAt (Patch.lines src) r p →
    Plan.Site ⟨1, head.length⟩ (es ++ last) p r ∨ Plan.InComment ⟨1, head.length⟩ (es ++ last) p r
  sites : ∀ r ∈ pending, r.needsDocAlias = true → ∃ p : Pos, r.column = p.col ∧
    Plan.Site ⟨1, head.length⟩ (es ++ last) p r ∧ FoundAt (Patch.lines src) r p
  heads : ∀ r ∈ pending, r.needsDocAlias = true → ∀ k : Nat, r.line = k → ∃ above below,
    es ++ last = above ++ below ∧ ⟨k, 0⟩ = (⟨1, head.length⟩ : Pos).advance (Element.textL above) ∧
      (above = [] ∨ ∃ front, above = front ++ [.newline])

theorem exists_ready {path src : Bytes} {mode : Mode} {toks : List Token}
    (hbom : Bytes.startsWith src Event.byteOrderMark = false) (hlex : Token.lex src = .ok toks)
    (herror : (Analysis.run path .definitions mode (Outline.read toks)).error = none)
    (h : Aliasable src (Analysis.run path .definitions mode (Outline.read toks)).ledger.pending) :
    ∃ head es last, Ready src toks head es last
      (Analysis.run path .definitions mode (Outline.read toks)).ledger.pending := by
  obtain ⟨head, es, last, hscanned⟩ := exists_scanned hbom hlex
  have hfound : ∀ r ∈ (Analysis.run path .definitions mode (Outline.read toks)).ledger.pending,
      r ∈ Finding.renames
        (Analysis.findings { path, tool := .definitions, mode } (Outline.read toks)) := by
    intro r hr
    rw [Analysis.pending_run herror] at hr
    exact (Rename.perm_sortByLine _).mem_iff.1 hr
  have hcode : ∀ r ∈ (Analysis.run path .definitions mode (Outline.read toks)).ledger.pending,
      0 ≤ r.column → ∃ p : Pos, r.column = p.col ∧
        Plan.Site ⟨1, head.length⟩ (es ++ last) p r ∧ FoundAt (lines src) r p := by
    intro r hr hcolumn
    have hfits : r.Fits (Token.start src) es := by
      refine Analysis.fits_codeRenames (hscanned.body ▸ hscanned.reads) ?_
        (List.mem_filter.2 ⟨hfound r hr, decide_eq_true hcolumn⟩) (h.names r hr)
      rw [hscanned.start]
      exact hscanned.nest
    rw [hscanned.start] at hfits
    obtain ⟨p, hcol, hsite, hp⟩ := found_of_fits hscanned hfits
    exact ⟨p, hcol, site_append hscanned.newline hsite, hp⟩
  refine ⟨head, es, last, { hscanned with
    apart := Analysis.lines_of_definitions herror
    names := fun r hr => Analysis.isName_of_mem hlex (hfound r hr) (h.names r hr)
    places := fun r hr p hp => ?_
    sites := fun r hr halias =>
      hcode r hr (Analysis.column_of_needsDocAlias (hfound r hr) halias)
    heads := fun r hr halias k hk => ?_ }⟩
  · by_cases hcolumn : 0 ≤ r.column
    · obtain ⟨q, -, hsite, hq⟩ := hcode r hr hcolumn
      rw [hp.unique hq]
      exact .inl hsite
    · exact .inr (inComment_append hscanned (h.docs r hr (by omega) p hp))
  · obtain ⟨above, below, ⟨hreads, hplace⟩, habove⟩ := h.starts r hr halias k hk
    rw [hscanned.body] at hreads
    rw [hscanned.start] at hplace
    obtain rfl := hscanned.reads.unique hreads
    exact ⟨above, below ++ last, by simp, hplace, habove⟩

namespace Ready

variable {src head : Bytes} {toks : List Token} {es last : List Element} {pending : List Rename}

theorem exists_head (h : Ready src toks head es last pending) {p : Pos}
    (hp : fronts .definitions .generate pending (lines src) p ≠ []) :
    (∃ name, fronts .definitions .generate pending (lines src) p = aliasElements name) ∧
      ∃ above below, es ++ last = above ++ below ∧
        p = (⟨1, head.length⟩ : Pos).advance (Element.textL above) ∧
          (above = [] ∨ ∃ front, above = front ++ [.newline]) := by
  obtain ⟨hcol, r, hr, c, hfound, halias, hfront⟩ := exists_found_of_fronts h.apart hp
  obtain ⟨i, text, hi, hl, -⟩ := hfound
  have hneeds : r.needsDocAlias = true := by
    simp only [writesAlias, Bool.and_eq_true] at halias
    exact halias.2
  obtain ⟨l, c⟩ := p
  obtain rfl : c = 0 := hcol
  exact ⟨⟨_, hfront⟩, h.heads r hr hneeds l hl⟩

theorem turns (h : Ready src toks head es last pending) :
    Plan.Turns (placed .definitions pending (lines src))
      (fronts .definitions .generate pending (lines src)) ⟨1, head.length⟩ (es ++ last) := by
  refine Plan.Places.turns ⟨?_, fun q r hq => ?_, fun q r hq => ?_, fun q hq => ?_⟩
  · intro e he
    rcases List.mem_append.1 he with he | he
    · exact h.reads.text_ne_nil e he
    · rcases h.newline with rfl | rfl
      · exact nomatch he
      · obtain rfl := List.mem_singleton.1 he
        decide
  · exact h.names r ((placed_eq_some_iff h.apart).1 hq).1
  · obtain ⟨hr, hfound⟩ := (placed_eq_some_iff h.apart).1 hq
    exact .inr (h.places r hr q hfound)
  · obtain ⟨-, above, below, hsplit, hplace, rfl | ⟨front, rfl⟩⟩ := h.exists_head hq
    · exact .inr (.inl hplace)
    · exact .inr (.inr ⟨front, below, by rw [hsplit]; simp, hplace⟩)

/-- No rename and no attribute has a place in the `#!` line. -/
theorem not_in_head (h : Ready src toks head es last pending) {a₁ a₂ : Bytes}
    (ha : head = a₁ ++ a₂) (hne : a₂ ≠ []) :
    placed .definitions pending (lines src) ((⟨1, 0⟩ : Pos).advance a₁) = none ∧
      fronts .definitions .generate pending (lines src) ((⟨1, 0⟩ : Pos).advance a₁) = [] := by
  have hplace : ∀ t, (⟨1, 0⟩ : Pos).advance a₁ ≠ (⟨1, head.length⟩ : Pos).advance t := by
    intro t
    have hstart : (⟨1, head.length⟩ : Pos) = ((⟨1, 0⟩ : Pos).advance a₁).advance a₂ := by
      rw [← Pos.advance_append, ← ha, Pos.advance_of_no_newline _ h.line, Nat.zero_add]
    rw [hstart, ← Pos.advance_append]
    exact (Pos.before_advance _ (List.append_ne_nil_of_left_ne_nil hne t)).ne
  constructor
  · cases hr : placed .definitions pending (lines src) ((⟨1, 0⟩ : Pos).advance a₁) with
    | none => rfl
    | some r =>
      obtain ⟨hmem, hfound⟩ := (placed_eq_some_iff h.apart).1 hr
      rcases h.places r hmem _ hfound with ⟨_, _, _, hpos, _⟩ | ⟨_, _, _, _, _, _, _, _, hpos⟩
      · exact absurd hpos (hplace _)
      · exact absurd hpos (hplace _)
  · by_contra hput
    obtain ⟨-, above, below, -, hpos, -⟩ := h.exists_head hput
    exact hplace _ hpos

/-- **The new text of the file** is its `#!` line and the text of the elements with their renames and
attributes. -/
theorem output_eq (h : Ready src toks head es last pending) {ledger : Ledger}
    (htool : ledger.tool = .definitions) (hpending : ledger.pending = pending) {out : Bytes}
    (hout : (apply src ledger .generate).output = some out) :
    out = head ++ Element.textL (aliased src pending ⟨1, head.length⟩ (es ++ last)) := by
  subst hpending
  have hwords : ∀ r ∈ ledger.pending, Line.IsWord r.name :=
    fun r hr => Line.isWord_of_isName (h.names r hr).1
  rw [output_eq_weave hwords hout, htool, h.lines, List.append_assoc, ← Element.textL_append es, aliased,
    woven, Element.textL_append (fronts _ _ _ _ _), ← h.turns.weave]
  by_cases hhead : head = []
  · rw [hhead]
    rfl
  · have hquiet : (placed .definitions ledger.pending (lines src)).Quiet ⟨1, 0⟩ head :=
      fun a₁ a₂ ha hne => (h.not_in_head ha hne).1
    have hunbroken : Plan.Unbroken (fun p => Element.textL
        (fronts .definitions .generate ledger.pending (lines src) p)) ⟨1, 0⟩ head :=
      fun a₁ a₂ ha _ hne => by simp only [(h.not_in_head ha hne).2, Element.textL_nil]
    have hwalk := Plan.walk_keep hquiet []
    rw [List.append_nil, Plan.walk, List.append_nil] at hwalk
    have hnone := (@not_in_head _ _ _ _ _ _ h [] head rfl hhead).2
    rw [Pos.advance_nil] at hnone
    simp only [hnone, Element.textL_nil, List.nil_append]
    rw [Plan.weave_append (Nat.zero_le _) hhead (.of_quiet hquiet) hunbroken, hwalk,
      Pos.advance_of_no_newline _ h.line, Nat.zero_add]

/-! ### Reading the new text -/

/-- What is put in at a place, if anything, is an attribute. -/
theorem fronts_cases (h : Ready src toks head es last pending) (p : Pos) :
    fronts .definitions .generate pending (lines src) p = [] ∨
      ∃ name, fronts .definitions .generate pending (lines src) p = aliasElements name :=
  or_iff_not_imp_left.2 fun hp => (h.exists_head hp).1

theorem free_fronts (h : Ready src toks head es last pending) (p : Pos) :
    Element.Free (fronts .definitions .generate pending (lines src) p) := by
  rcases h.fronts_cases p with hnone | ⟨name, hname⟩
  · rw [hnone]
    exact fun _ hes => hes
  · rw [hname]
    exact free_aliasElements name

theorem stack_fronts (h : Ready src toks head es last pending) (p q : Pos) (ds : List Delimiter) :
    Event.stack (Element.events q (fronts .definitions .generate pending (lines src) p)) ds =
      some ds := by
  rcases h.fronts_cases p with hnone | ⟨name, hname⟩
  · rw [hnone]
    rfl
  · rw [hname]
    exact stack_aliasElements name q ds

theorem reads_aliased (h : Ready src toks head es last pending) :
    Reads (Element.textL (aliased src pending ⟨1, head.length⟩ (es ++ last)))
      (aliased src pending ⟨1, head.length⟩ (es ++ last)) :=
  have hreads := (h.reads.renamed (.append_newline h.newline)).1
  h.free_fronts ⟨1, head.length⟩ _ (hreads.renamed (h.turns.renamed h.free_fronts)).1

theorem shebang_aliased (h : Ready src toks head es last pending) :
    Event.shebang (head ++
      Element.textL (aliased src pending ⟨1, head.length⟩ (es ++ last))) = head.length := by
  have hgrown := @Renamed.append_newline es last h.newline
  by_cases hfront : fronts .definitions .generate pending (lines src) ⟨1, head.length⟩ = []
  · rw [aliased, woven, hfront, List.nil_append]
    refine Event.shebang_renamed (h.reads.renamed hgrown).1 (h.turns.renamed h.free_fronts)
      (Event.shebang_renamed h.reads hgrown ?_)
    rw [← h.source, h.shebang]
  · obtain rfl : head = [] :=
      List.eq_nil_of_length_eq_zero (exists_found_of_fronts h.apart hfront).1
    obtain ⟨⟨name, hname⟩, -⟩ := h.exists_head hfront
    rw [aliased, woven, hname]
    exact shebang_aliasElements name _

/-- The elements of the new text open and close the groups that those of the file do. -/
theorem exists_nest_aliased (h : Ready src toks head es last pending) :
    ∃ toks' : List Token, Token.nest (Element.events ⟨1, head.length⟩
      (aliased src pending ⟨1, head.length⟩ (es ++ last))) [] [] = .ok ([], toks'.reverse) := by
  have hlast : Event.stack (Element.events ⟨1, head.length⟩ (es ++ last)) [] = some [] := by
    rw [Element.events_append, Event.stack_append, Token.stack_of_nest_eq h.nest]
    rcases h.newline with rfl | rfl <;> rfl
  refine Token.exists_nest_of_stack ?_
  rw [aliased, woven, Element.events_append, Event.stack_append, h.stack_fronts, Option.bind_some,
    h.turns.stack h.stack_fronts, hlast]

/-- **The new text of the file is read** as the elements with their renames and attributes, and these
have token trees. -/
theorem lex_aliased (h : Ready src toks head es last pending) {ledger : Ledger}
    (htool : ledger.tool = .definitions) (hpending : ledger.pending = pending) {out : Bytes}
    (hout : (apply src ledger .generate).output = some out) :
    Bytes.startsWith out Event.byteOrderMark = false ∧ ∃ toks', Token.lex out = .ok toks' ∧
      Token.nest (Element.events ⟨1, head.length⟩
        (aliased src pending ⟨1, head.length⟩ (es ++ last))) [] [] = .ok ([], toks'.reverse) := by
  rw [h.output_eq htool hpending hout]
  have hbom := Token.no_byteOrderMark_of_head h.reads_aliased h.shebang_aliased
  obtain ⟨hbody, hstart⟩ := Token.body_of_head hbom h.shebang_aliased
  obtain ⟨toks', hnest⟩ := h.exists_nest_aliased
  refine ⟨hbom, toks', Token.lex_eq_ok_iff.2
    ⟨aliased src pending ⟨1, head.length⟩ (es ++ last), ?_, ?_⟩, hnest⟩
  · rw [hbody]
    exact h.reads_aliased
  · rw [hstart]
    exact hnest

end Ready

end Patch

end GetterRename
