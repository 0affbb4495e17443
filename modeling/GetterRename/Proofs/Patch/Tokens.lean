import GetterRename.Proofs.Getter.Ledger
import GetterRename.Proofs.Naming.Rules
import GetterRename.Proofs.Patch.Elements
import GetterRename.Proofs.Source.FileHead
import GetterRename.Proofs.Source.TokenList

/-!
# Token trees after renaming

Applying the renames of a file changes the names at their places and nothing else: the new text has
the token trees of the former one, with the new names and up to columns.

* `Plan.ofRenames` — the plan of a list of renames;
* `Rename.Fits` — a rename that can be carried out;
* `Patch.output_eq_walk` — the new text of a file is its text with the renames of the plan;
* `Token.exists_nest_of_along` — the token trees of renamed elements;
* `Patch.lex_output` — the token trees of the new text.
-/

namespace GetterRename

/-! ### Plans of renames -/

namespace Plan

def ofRenames (rs : List Rename) : Plan := fun p =>
  rs.find? fun r => r.line == (p.line : Int) && r.column == (p.col : Int)

theorem ofRenames_eq_some_iff {rs : List Rename} (hs : rs.Pairwise Rename.Before) {p : Pos}
    {r : Rename} :
    ofRenames rs p = some r ↔ r ∈ rs ∧ r.line = p.line ∧ r.column = p.col := by
  constructor
  · intro h
    have hat := List.find?_some h
    simp only [Bool.and_eq_true, beq_iff_eq] at hat
    exact ⟨List.mem_of_find?_eq_some h, hat⟩
  · rintro ⟨hmem, hline, hcol⟩
    unfold ofRenames
    induction rs with
    | nil => simp at hmem
    | cons x rs ih =>
      obtain ⟨hx, hrs⟩ := List.pairwise_cons.1 hs
      rw [List.find?_cons]
      rcases List.mem_cons.1 hmem with rfl | hmem
      · simp [hline, hcol]
      · have hne : (x.line == (p.line : Int) && x.column == (p.col : Int)) = false := by
          have hbefore := hx r hmem
          simp only [Rename.Before] at hbefore
          simp only [Bool.and_eq_false_iff, beq_eq_false_iff_ne]
          omega
        rw [hne]
        exact ih hrs hmem

theorem planned_ofRenames {rs : List Rename} (hs : rs.Pairwise Rename.Before) (k : Nat) :
    Line.Planned (ofRenames rs) k (rs.filter fun r => r.line == (k : Int)) := by
  intro c r
  rw [ofRenames_eq_some_iff hs, List.mem_filter, beq_iff_eq, and_assoc]

end Plan

namespace Token

def renamedBy (rs : List Rename) (ts : List Token) : List Token :=
  relabelL (Plan.ofRenames rs).nameOf id ts

def withoutColumns (ts : List Token) : List Token := relabelL (·.text) Pos.lineOnly ts

theorem exists_nest_of_along {rs : List Rename} {tail : List Element} {p : Pos}
    {es es' : List Element} {toks : List Token}
    (h : (Plan.ofRenames rs).Along tail p es es')
    (htail : tail = [] ∨ tail = [⟨.blank, [byte '\n']⟩])
    (hnest : nest (Element.events p es) [] [] = .ok ([], toks.reverse)) :
    ∃ toks', nest (Element.events p es') [] [] = .ok ([], toks'.reverse) ∧
      withoutColumns toks' = withoutColumns (renamedBy rs toks) := by
  obtain ⟨toks', hnest', heq⟩ := exists_nest_of_relabel (h.events htail rfl) hnest
  refine ⟨toks', hnest', ?_⟩
  rw [withoutColumns, withoutColumns, renamedBy, relabelL_relabelL, relabelL_eq_map,
    relabelL_eq_map, heq]

end Token

/-! ### The renames of a file -/

/-- The rename stands at an identifier of the elements from `p` on and can be carried out there. -/
structure Rename.Fits (p : Pos) (es : List Element) (r : Rename) : Prop where
  site : ∃ q : Pos, r.line = q.line ∧ r.column = q.col ∧ Plan.Site p es q r
  name : IsName r.name
  word : r.name.head?.any isWordByte = true
  newName : IsName r.newName.text

theorem Rename.Renames.isName_name {ctx : Context} {r : Rename} {id : Ident} (h : r.Renames ctx id)
    (hid : id.text.head? ≠ some (byte 'r') → IsName id.text) : IsName r.name := by
  rw [h.name]
  apply hid
  rw [h.head?_text]
  decide

theorem Rename.Renames.isName {ctx : Context} {r : Rename} {id : Ident} (h : r.Renames ctx id)
    (hid : id.text.head? ≠ some (byte 'r') → IsName id.text)
    (hnew : ∃ name p, Token.lex r.newName.text = .ok [.ident name p]) :
    IsName r.name ∧ IsName r.newName.text ∧ r.name.head?.any isWordByte = true := by
  obtain ⟨suffix, known, hget, hrule⟩ := h.exists_suffix
  have hname := h.isName_name hid
  have hrun : IsRun suffix := by
    have := hname.run
    rw [h.name, hget] at this
    exact ((show IsRun Naming.getHead by decide +kernel).append_iff suffix).1 this
  obtain ⟨name, p, hlex⟩ := hnew
  refine ⟨hname, Naming.isName_of_lex (Naming.isRun_renameSuffix hrun hrule) hlex, ?_⟩
  rw [h.name, hget]
  rfl

/-- The renames of real code can be carried out, if their new names are identifiers. -/
theorem Analysis.fits_codeRenames {path src : Bytes} {tool : Tool} {mode : Mode}
    {es : List Element} {toks : List Token} (hreads : Reads (Token.body src) es)
    (hnest : Token.nest (Element.events (Token.start src) es) [] [] = .ok ([], toks.reverse))
    {r : Rename} (hr : r ∈ codeRenames path tool mode (Outline.read toks))
    (hnew : ∃ name p, Token.lex r.newName.text = .ok [.ident name p]) :
    r.Fits (Token.start src) es := by
  obtain ⟨id, hid, hren⟩ := (trace_codeRenames path tool mode toks).exists_of_mem hr
  obtain ⟨es₁, es₂, rfl, hpos, hnext⟩ := Token.exists_elements_of_mem hreads hnest hid
  obtain ⟨hold, hnew, hword⟩ := hren.isName hreads.isName hnew
  refine ⟨⟨id.pos, ?_, hren.column, es₁, es₂, ?_, hpos, hnext⟩, hold, hword, hnew⟩
  · simp [hren.line, View.line]
  · rw [hren.name]

theorem Analysis.exists_renames_of_mem {path src : Bytes} {tool : Tool} {mode : Mode}
    {toks : List Token} {r : Rename} (hlex : Token.lex src = .ok toks)
    (hr : r ∈ Finding.renames (findings { path, tool, mode } (Outline.read toks))) :
    ∃ (ctx : Context) (id : Ident),
      r.Renames ctx id ∧ (id.text.head? ≠ some (byte 'r') → IsName id.text) := by
  have hnamed : ∀ {src : Bytes} {toks : List Token} {id : Ident}, Token.lex src = .ok toks →
      id ∈ Token.safeNamesL toks → id.text.head? ≠ some (byte 'r') → IsName id.text := by
    intro src toks id hlex hid
    obtain ⟨es, hreads, hnest⟩ := Token.lex_eq_ok_iff.1 hlex
    obtain ⟨es₁, es₂, rfl, -, -⟩ := Token.exists_elements_of_mem hreads hnest hid
    exact hreads.isName
  by_cases hcolumn : 0 ≤ r.column
  · have hcode : r ∈ codeRenames path tool mode (Outline.read toks) :=
      List.mem_filter.2 ⟨hr, decide_eq_true hcolumn⟩
    obtain ⟨id, hid, hren⟩ := (trace_codeRenames path tool mode toks).exists_of_mem hcode
    exact ⟨_, id, hren, hnamed hlex hid⟩
  · obtain ⟨b, hb⟩ := exists_block_of_mem rfl hr (by omega)
    obtain ⟨-, toks, id, hlex, hid, hren⟩ := exists_of_blockFindings hb
    exact ⟨_, id, hren, hnamed hlex hid⟩

theorem Analysis.isName_of_mem {path src : Bytes} {tool : Tool} {mode : Mode} {toks : List Token}
    {r : Rename} (hlex : Token.lex src = .ok toks)
    (hr : r ∈ Finding.renames (findings { path, tool, mode } (Outline.read toks)))
    (hnew : ∃ name p, Token.lex r.newName.text = .ok [.ident name p]) :
    IsName r.name ∧ IsName r.newName.text ∧ r.name.head?.any isWordByte = true := by
  obtain ⟨ctx, id, hren, hid⟩ := exists_renames_of_mem hlex hr
  exact hren.isName hid hnew

/-! ### The new text -/

namespace Patch

/-- The text of a file, cut for its renames: a `#!` line, the elements behind it, and the newline
that its last line may lack. -/
structure Cut (src head tail : Bytes) (es : List Element) : Prop where
  lines : (lines src).flatMap (· ++ [byte '\n']) = head ++ Element.textL es ++ tail
  reads : Reads (Element.textL es) es
  line : byte '\n' ∉ head
  lineEnd : head = [] ∨ (Element.textL es).head?.all (· == byte '\n') = true
  tail : tail = [] ∨ tail = [byte '\n']

/-- A file cut for its renames, of which the text behind the `#!` line has these token trees. -/
structure Scanned (src : Bytes) (toks : List Token) (head : Bytes) (es last : List Element) : Prop
    extends Cut src head (Element.textL last) es where
  source : src = head ++ Element.textL es
  shebang : Event.shebang src = head.length
  body : Token.body src = Element.textL es
  start : Token.start src = ⟨1, head.length⟩
  nest : Token.nest (Element.events ⟨1, head.length⟩ es) [] [] = .ok ([], toks.reverse)
  newline : last = [] ∨ last = [.newline]

theorem exists_scanned {src : Bytes} {toks : List Token}
    (hbom : Bytes.startsWith src Event.byteOrderMark = false) (hlex : Token.lex src = .ok toks) :
    ∃ head es last, Scanned src toks head es last := by
  obtain ⟨es, hreads, hnest⟩ := Token.lex_eq_ok_iff.1 hlex
  obtain ⟨head, hsrc, hshebang, hstart, hline, hend⟩ := Token.exists_head hbom
  rw [hstart] at hnest
  rw [← hreads.textL_eq] at hsrc hend
  obtain ⟨tail, htail, hlines⟩ := (isLines_lines src).exists_tail
  obtain ⟨tailEs, htailEs, rfl⟩ : ∃ tailEs, (tailEs = [] ∨ tailEs = [.newline]) ∧
      tail = Element.textL tailEs := by
    rcases htail with rfl | rfl
    · exact ⟨[], .inl rfl, rfl⟩
    · exact ⟨_, .inr rfl, rfl⟩
  refine ⟨head, es, tailEs, ⟨⟨?_, hreads.of_textL, hline, hend, htail⟩, hsrc, hshebang,
    hreads.textL_eq.symm, hstart, hnest, htailEs⟩⟩
  rw [hlines]
  exact congrArg (· ++ _) hsrc

/-- A rename that can be carried out stands on its line as a whole identifier. -/
theorem isIdentAt_of_fits {src head tail : Bytes} {es : List Element} {r : Rename}
    (hcut : Cut src head tail es) (h : r.Fits ⟨1, head.length⟩ es) :
    ∃ i text, r.line = ((1 + i : Nat) : Int) ∧ 0 ≤ r.column ∧ (lines src)[i]? = some text ∧
      Line.isIdentAt text r.column.toNat r.name = true := by
  obtain ⟨hlines, hreads, hline, hend, htail⟩ := hcut
  obtain ⟨q, hl, hc, es₁, es₂, rfl, hpos, hnext⟩ := h.site
  have hplace : (⟨1, 0⟩ : Pos).advance (head ++ Element.textL es₁) = q := by
    rw [Pos.advance_append, Pos.advance_of_no_newline _ hline, hpos, Nat.zero_add]
  have hsplit : (lines src).flatMap (· ++ [byte '\n']) =
      (head ++ Element.textL es₁) ++ (r.name ++ (Element.textL es₂ ++ tail)) := by
    rw [hlines]
    simp
  have hbefore : ∀ b, (head ++ Element.textL es₁).getLast? = some b →
      b = byte '\n' ∨ isRunByte b = false := by
    intro b hb
    by_cases hne : es₁ = []
    · -- behind a `#!` line the text starts with a newline
      subst hne
      obtain ⟨c, name, hname⟩ := List.exists_cons_of_ne_nil h.name.ne_nil
      have hword := h.word
      rw [hname, List.head?_cons, Option.any_some] at hword
      rcases hend with rfl | hend
      · simp at hb
      · simp only [List.nil_append, Element.textL_cons, hname, List.cons_append, List.head?_cons,
          Option.all_some, beq_iff_eq] at hend
        rw [hend] at hword
        exact absurd hword (by decide)
    · obtain ⟨c, hc, hrun⟩ := hreads.closed_before h.word hne
      rw [List.getLast?_append, hc] at hb
      obtain rfl : c = b := by simpa using hb
      exact .inr hrun
  have hbehind : (Element.textL es₂ ++ tail).head?.any isRunByte = false := by
    have hclosed := hreads.closed_behind
    cases htext : Element.textL es₂ with
    | nil =>
      rcases htail with rfl | rfl
      · rfl
      · decide
    | cons c rest => simpa [htext] using hclosed
  obtain ⟨i, text, hi, ht, hident⟩ :=
    @isIdentAt_of_split (lines src) _ r.name _ 1 (isLines_lines src).line hsplit h.name hbefore
      hbehind
  rw [hplace] at hi hident
  refine ⟨i, text, by rw [hl, hi], by omega, ht, ?_⟩
  rwa [hc, Int.toNat_natCast]

theorem fit_of_fits {src head tail : Bytes} {es : List Element} {rs : List Rename}
    (hcut : Cut src head tail es) (hs : rs.Pairwise Rename.Before)
    (hfits : ∀ r ∈ rs, r.Fits ⟨1, head.length⟩ es) {i : Nat} {text : Bytes}
    (ht : (lines src)[i]? = some text) :
    Line.Fit text (rs.filter fun r => r.line == ((1 + i : Nat) : Int)) := by
  have hident : ∀ r ∈ rs.filter fun r => r.line == ((1 + i : Nat) : Int), r ∈ rs ∧
      0 ≤ r.column ∧ Line.isIdentAt text r.column.toNat r.name = true := by
    intro r hr
    obtain ⟨hmem, hline⟩ := List.mem_filter.1 hr
    rw [beq_iff_eq] at hline
    obtain ⟨j, text', hj, hcol, ht', hat⟩ := isIdentAt_of_fits hcut (hfits r hmem)
    obtain rfl : j = i := by omega
    obtain rfl : text = text' := Option.some.inj (ht.symm.trans ht')
    exact ⟨hmem, hcol, hat⟩
  refine ⟨fun r hr => (hident r hr).2.1, fun r hr => (hident r hr).2.2,
    fun r hr => (hfits r (hident r hr).1).name, ?_⟩
  refine (hs.sublist List.filter_sublist).imp_of_mem fun {a b} ha hb hab => ?_
  have hla := (List.mem_filter.1 ha).2
  have hlb := (List.mem_filter.1 hb).2
  rw [beq_iff_eq] at hla hlb
  unfold Rename.Before at hab
  omega

/-- The new text of a file is its text with the renames of the plan. -/
theorem output_eq_walk {src head tail out : Bytes} {es : List Element} {ledger : Ledger}
    {docAlias : DocAlias} (hcut : Cut src head tail es)
    (hs : ledger.pending.Pairwise Rename.Before)
    (hfits : ∀ r ∈ ledger.pending, r.Fits ⟨1, head.length⟩ es)
    (halias : NoAlias ledger.tool docAlias) (hout : (apply src ledger docAlias).output = some out) :
    out = (Plan.ofRenames ledger.pending).walk ⟨1, 0⟩ 0 (head ++ Element.textL es ++ tail) := by
  rw [← (output_eq_some_iff.1 hout).2, ← hcut.lines]
  exact text_changes halias (isLines_lines src).line
    (fun r hr => Line.isWord_of_isName (hfits r hr).name)
    (fun i text ht => fit_of_fits hcut hs hfits ht) fun i _ => Plan.planned_ofRenames hs (1 + i)

/-- No rename starts in the `#!` line. -/
theorem quiet_head {head : Bytes} {es : List Element} {rs : List Rename}
    (hline : byte '\n' ∉ head) (hs : rs.Pairwise Rename.Before)
    (hfits : ∀ r ∈ rs, r.Fits ⟨1, head.length⟩ es) :
    (Plan.ofRenames rs).Quiet ⟨1, 0⟩ head := by
  refine Line.quiet_of_columns hline fun c _ hc => ?_
  cases hr : Plan.ofRenames rs ⟨1, c⟩ with
  | none => rfl
  | some r =>
    obtain ⟨hmem, hl, hcol⟩ := (Plan.ofRenames_eq_some_iff hs).1 hr
    obtain ⟨q, hql, hqc, es₁, es₂, -, hq, -⟩ := (hfits r hmem).site
    exfalso
    simp only at hl hcol
    by_cases hne : Element.textL es₁ = []
    · rw [hne, Pos.advance_nil] at hq
      subst hq
      simp only at hql hqc
      omega
    · have hbefore := (⟨1, head.length⟩ : Pos).before_advance hne
      rw [← hq] at hbefore
      simp only [Pos.Before] at hbefore
      omega

theorem exists_along_of_fits {p : Pos} {es tail : List Element} {rs : List Rename}
    (htext : ∀ e ∈ es, e.text ≠ []) (hs : rs.Pairwise Rename.Before)
    (hfits : ∀ r ∈ rs, r.Fits p es) : ∃ es', (Plan.ofRenames rs).Along tail p es es' := by
  refine Plan.exists_along htext (fun q r hq => ?_) fun q r hq => ?_
  · have hr := hfits r ((Plan.ofRenames_eq_some_iff hs).1 hq).1
    exact ⟨hr.name, hr.newName, hr.word⟩
  · obtain ⟨hmem, hl, hc⟩ := (Plan.ofRenames_eq_some_iff hs).1 hq
    obtain ⟨q', hl', hc', hsite⟩ := (hfits r hmem).site
    obtain rfl : q' = q := by
      obtain ⟨l, c⟩ := q
      obtain ⟨l', c'⟩ := q'
      simp only at hl hc hl' hc'
      simp only [Pos.mk.injEq]
      omega
    exact .inr hsite

/-- **Token trees after renaming.**  Where all renames of a file know their column and their new
names are identifiers, the new text has the token trees of the file up to columns, with the new
names at the places of the renames. -/
theorem lex_output {src out path : Bytes} {tool : Tool} {mode : Mode} {docAlias : DocAlias}
    {toks : List Token} {c : Analysis}
    (hbom : Bytes.startsWith src Event.byteOrderMark = false) (hlex : Token.lex src = .ok toks)
    (htool : tool = .calls ∨ docAlias = .discard)
    (hrun : Analysis.run path tool mode (Outline.read toks) = c) (herror : c.error = none)
    (hcolumn : ∀ r ∈ c.ledger.pending, 0 ≤ r.column)
    (hnew : ∀ r ∈ c.ledger.pending, ∃ name p, Token.lex r.newName.text = .ok [.ident name p])
    (hout : (apply src c.ledger docAlias).output = some out) :
    (∀ r ∈ c.ledger.pending, ∃ id ∈ Token.namesL toks, r.name = id.text ∧
        r.line = id.pos.line ∧ r.column = id.pos.col ∧
        (Plan.ofRenames c.ledger.pending).nameOf id = r.newName.text) ∧
      ∃ toks', Token.lex out = .ok toks' ∧
        Token.withoutColumns toks' =
          Token.withoutColumns (Token.renamedBy c.ledger.pending toks) := by
  subst hrun
  obtain ⟨hpending, hs⟩ := Analysis.pending_of_columns hlex herror hcolumn
  generalize hc : Analysis.run path tool mode (Outline.read toks) = c at *
  have hmode : c.ledger.tool = tool := by
    rw [← hc]
    exact Analysis.record_tool _ _
  rw [← hpending] at hs
  constructor
  · intro r hr
    have htrace := (Analysis.trace_codeRenames path tool mode toks).mono
      (Token.safeNamesL_sublist toks)
    obtain ⟨id, hid, hren⟩ := htrace.exists_of_mem (hpending ▸ hr)
    have hline : r.line = id.pos.line := by simp [hren.line, View.line]
    have hplan := (Plan.ofRenames_eq_some_iff hs).2 ⟨hr, hline, hren.column⟩
    exact ⟨id, hid, hren.name, hline, hren.column, by simp [Plan.nameOf, hplan]⟩
  · obtain ⟨head, es, tail, hscanned⟩ := exists_scanned hbom hlex
    have hreads := hscanned.reads
    have hfits : ∀ r ∈ c.ledger.pending, r.Fits ⟨1, head.length⟩ es := fun r hr => by
      rw [← hscanned.start]
      refine Analysis.fits_codeRenames (hscanned.body ▸ hreads) ?_ (hpending ▸ hr) (hnew r hr)
      rw [hscanned.start]
      exact hscanned.nest
    obtain ⟨es', halong⟩ := @exists_along_of_fits _ _ tail _ hreads.text_ne_nil hs hfits
    have hnoAlias : NoAlias c.ledger.tool docAlias := by
      rw [hmode]
      rcases htool with rfl | rfl
      · exact noAlias_of_calls docAlias
      · exact noAlias_of_discard tool
    have hwalk : out = head ++ Element.textL es' := by
      rw [output_eq_walk hscanned.toCut hs hfits hnoAlias hout, List.append_assoc,
        Plan.walk_keep (quiet_head hscanned.line hs hfits),
        Pos.advance_of_no_newline _ hscanned.line, Nat.zero_add, halong.walk hscanned.newline]
    obtain ⟨toks', hnest', heq⟩ :=
      Token.exists_nest_of_along halong hscanned.newline hscanned.nest
    have hrenamed := halong.renamed hscanned.newline
    obtain ⟨hbody, hstart'⟩ := Token.body_renamed hreads hrenamed
      (by rw [← hscanned.source, hscanned.shebang])
    refine ⟨toks', Token.lex_eq_ok_iff.2 ⟨es', ?_, ?_⟩, heq⟩
    · rw [hwalk, hbody]
      exact (hreads.renamed hrenamed).1
    · rw [hwalk, hstart']
      exact hnest'

/-- The renames of the call `get_x(y.get_z())`. -/
def nestedRenames : List Rename :=
  [⟨"get_x", ⟨"x", .maybe, .regular⟩, 1, 0, .file, false, false⟩,
    ⟨"get_z", ⟨"z", .maybe, .regular⟩, 1, 8, .file, true, false⟩]

theorem run_nestedCalls :
    let c := Analysis.run "src/lib.rs" .calls .allGetFunctions (Outline.read Analysis.nestedCalls)
    c.ledger.tool = .calls ∧ c.ledger.pending = nestedRenames := by
  decide +kernel

theorem lex_output_nestedCalls :
    let c := Analysis.run "src/lib.rs" .calls .allGetFunctions (Outline.read Analysis.nestedCalls)
    (∀ r ∈ c.ledger.pending, ∃ id ∈ Token.namesL Analysis.nestedCalls, r.name = id.text ∧
        r.line = id.pos.line ∧ r.column = id.pos.col ∧
        (Plan.ofRenames c.ledger.pending).nameOf id = r.newName.text) ∧
      ∃ toks', Token.lex "x(y.z())\n" = .ok toks' ∧
        Token.withoutColumns toks' =
          Token.withoutColumns (Token.renamedBy c.ledger.pending Analysis.nestedCalls) := by
  have hlexed : ∀ r ∈ nestedRenames, ∃ name p, Token.lex r.newName.text = .ok [.ident name p] := by
    intro r hr
    have hfits : Element.fits [⟨.ident, r.newName.text⟩] = true ∧
        Token.body r.newName.text = r.newName.text := by
      revert r
      decide +kernel
    have hreads := Reads.of_fits hfits.1
    rw [Element.textL_cons, Element.textL_nil, List.append_nil] at hreads
    exact ⟨r.newName.text, _, Token.lex_eq_ok_iff.2 ⟨_, by rwa [hfits.2], rfl⟩⟩
  refine @lex_output "get_x(y.get_z())" "x(y.z())\n" "src/lib.rs" .calls .allGetFunctions .generate
    Analysis.nestedCalls _ (by decide) Analysis.lex_nestedCalls (.inl rfl) rfl
    (Analysis.error_of_calls rfl _) ?_ ?_ ?_
  · rw [run_nestedCalls.2]
    decide
  · rw [run_nestedCalls.2]
    exact hlexed
  · rw [@output_of_line _ "get_x(y.get_z())" _ _ [⟨0, 5, "x"⟩, ⟨8, 13, "z"⟩] (by decide +kernel)
      (by rw [run_nestedCalls.1]; exact noAlias_of_calls _)
      (by rw [run_nestedCalls.1, run_nestedCalls.2]; decide +kernel) (by simp [Line.Ascending])
      (by decide +kernel) (by simp)]
    decide +kernel

end Patch

end GetterRename
