import GetterRename.Proofs.Getter.Analysis
import GetterRename.Proofs.Getter.DocCode
import GetterRename.Proofs.Patch.Place

/-!
# Code in documentation and its lines

The lines of a block are put together with blank lines for those that are hidden or are no
documentation, so line `k` of the code is line `k` below the opening fence.  A name that is found
there on line `k` therefore stands on that line of the file, on a documentation line that is shown.

* `DocCode.snippet` — the lines below a fence, as far as they are shown;
* `DocCode.gathered_of_renamable` — the code of a block are these lines;
* `DocCode.Lands` — a rename and the documentation line that it is about;
* `DocCode.lands_of_mem_renames` — every rename in documentation lands on such a line.
-/

namespace GetterRename

namespace DocCode

/-! ### The code of a passage -/

/-- The text that the shown lines have on line `n` of the file. -/
def textOn (shown : List DocLine) (n : Nat) : Bytes :=
  ((shown.find? (·.line == n)).map (Blank.trim ·.text)).getD []

/-- The number of lines from the fence down to the last line shown. -/
def height (opening : DocLine) (shown : List DocLine) : Nat :=
  (shown.getLast?.map (·.line - opening.line)).getD 0

/-- The lines of the file below the fence, down to the last one shown: what is shown of each. -/
def snippet (opening : DocLine) (shown : List DocLine) : List Bytes :=
  (List.range (height opening shown)).map fun k => textOn shown (opening.line + 1 + k)

variable {opening doc : DocLine} {shown body docs : List DocLine}

theorem exists_of_textOn {n : Nat} (h : textOn shown n ≠ []) :
    ∃ doc ∈ shown, doc.line = n ∧ textOn shown n = Blank.trim doc.text := by
  unfold textOn at h ⊢
  cases hfind : shown.find? (·.line == n) with
  | none => simp [hfind] at h
  | some doc =>
    exact ⟨doc, List.mem_of_find?_eq_some hfind, by simpa using List.find?_some hfind, rfl⟩

theorem exists_of_snippet {i : Nat} {text : Bytes} (h : (snippet opening shown)[i]? = some text)
    (hne : text ≠ []) :
    ∃ doc ∈ shown, doc.line = opening.line + 1 + i ∧ text = Blank.trim doc.text := by
  rw [snippet, List.getElem?_map] at h
  obtain ⟨k, hk, rfl⟩ := Option.map_eq_some_iff.1 h
  obtain ⟨hlt, rfl⟩ := List.getElem?_eq_some_iff.1 hk
  rw [List.getElem_range] at hne ⊢
  exact exists_of_textOn hne

theorem textOn_append_singleton (h : ∀ d ∈ shown, d.line ≠ doc.line) (n : Nat) :
    textOn (shown ++ [doc]) n = if n = doc.line then Blank.trim doc.text else textOn shown n := by
  unfold textOn
  rw [List.find?_append]
  split
  · rename_i hn
    have hnone : shown.find? (·.line == n) = none := by simpa [hn] using h
    have hfound : [doc].find? (·.line == n) = some doc := by simp [hn]
    rw [hnone, Option.none_or, hfound]
    rfl
  · rename_i hn
    have hnone : [doc].find? (·.line == n) = none := by simpa using Ne.symm hn
    rw [hnone, Option.or_none]

theorem le_height (h : (opening :: shown).Pairwise (·.line < ·.line)) :
    ∀ d ∈ shown, d.line ≤ opening.line + height opening shown := by
  intro d hd
  obtain ⟨above, last, rfl⟩ : ∃ above last, shown = above ++ [last] :=
    shown.eq_nil_or_concat'.resolve_left (List.ne_nil_of_mem hd)
  have hlast : d.line ≤ last.line := by
    rcases List.mem_append.1 hd with hd | hd
    · exact Nat.le_of_lt ((List.pairwise_append.1 (List.pairwise_cons.1 h).2).2.2 d hd last
        (List.mem_singleton.2 rfl))
    · rw [List.mem_singleton.1 hd]
  simp only [height, List.getLast?_concat, Option.map_some, Option.getD_some]
  omega

theorem height_lt (h : (opening :: (shown ++ [doc])).Pairwise (·.line < ·.line)) :
    opening.line + height opening shown < doc.line := by
  obtain ⟨hopening, hrest⟩ := List.pairwise_cons.1 h
  have hdoc := hopening doc (by simp)
  rcases shown.eq_nil_or_concat' with rfl | ⟨above, last, rfl⟩
  · simpa [height] using hdoc
  · have hlast := hopening last (by simp)
    have hnext := (List.pairwise_append.1 hrest).2.2 last (by simp) doc (List.mem_singleton.2 rfl)
    simp only [height, List.getLast?_concat, Option.map_some, Option.getD_some]
    omega

theorem height_append_singleton (h : (opening :: (shown ++ [doc])).Pairwise (·.line < ·.line)) :
    height opening (shown ++ [doc]) =
      height opening shown + (doc.line - opening.line - 1 - height opening shown) + 1 := by
  have hlt := height_lt h
  have hheight : height opening (shown ++ [doc]) = doc.line - opening.line := by simp [height]
  omega

/-- One more line shown, with blank lines for those left out above it. -/
theorem snippet_append_singleton (h : (opening :: (shown ++ [doc])).Pairwise (·.line < ·.line)) :
    snippet opening (shown ++ [doc]) = snippet opening shown ++
      List.replicate (doc.line - opening.line - 1 - height opening shown) [] ++
        [Blank.trim doc.text] := by
  have hlt := height_lt h
  have hle := @le_height opening shown
    (h.sublist ((List.sublist_append_left shown [doc]).cons_cons opening))
  have htext := @textOn_append_singleton doc shown fun d hd => by
    have := hle d hd
    omega
  rw [snippet, height_append_singleton h, List.range_succ, List.range_add, List.map_append,
    List.map_append, List.map_map]
  refine congrArg₂ _ (congrArg₂ _ ?_ ?_) ?_
  · refine List.map_congr_left fun k hk => ?_
    rw [List.mem_range] at hk
    rw [htext, if_neg (by omega)]
  · refine List.eq_replicate_iff.2 ⟨by simp, fun text hmem => ?_⟩
    obtain ⟨k, hk, rfl⟩ := List.mem_map.1 hmem
    rw [List.mem_range] at hk
    rw [Function.comp_apply, htext, if_neg (by omega)]
    by_contra hne
    obtain ⟨d, hd, hline, -⟩ := exists_of_textOn hne
    have := hle d hd
    omega
  · rw [List.map_singleton, htext, if_pos (by omega)]

/-- **The code of a renamable block**: line `k` is `k` lines below the opening fence. -/
theorem gathered_of_renamable (htag : isRenamableTag (blockTag opening) = true)
    (h : (opening :: body).Pairwise (·.line < ·.line)) :
    gathered opening body = ⟨true, opening.line,
      (snippet opening (body.filter isShown)).flatMap (· ++ [byte '\n']),
      height opening (body.filter isShown)⟩ := by
  induction body using List.reverseRecOn with
  | nil =>
    unfold blockTag at htag
    simp [gathered, Block.opened, htag, snippet, height]
  | append_singleton body doc ih =>
    have hadd : gathered opening (body ++ [doc]) = (gathered opening body).add doc := by
      simp [gathered]
    rw [hadd, ih (h.sublist ((List.sublist_append_left body [doc]).cons_cons opening)), Block.add]
    cases hshown : isShown doc with
    | false => simp [hshown]
    | true =>
      have hfilter : (body ++ [doc]).filter isShown = body.filter isShown ++ [doc] := by
        simp [hshown]
      have hpairs := h.sublist ((List.filter_sublist (p := isShown)).cons_cons opening)
      rw [hfilter] at hpairs ⊢
      have hlt := height_lt hpairs
      rw [Bool.true_and, if_pos rfl, snippet_append_singleton hpairs]
      simp only [Block.push, List.flatMap_append, List.flatMap_replicate, List.nil_append]
      refine congrArg₂ (Block.mk true opening.line) ?_ (height_append_singleton hpairs).symm
      simp

end DocCode

/-! ### Trimmed text -/

theorem Blank.dropFrom_suffix (blanks : List Bytes) (skip : Nat) (text : Bytes) :
    dropFrom blanks skip text <:+ text := by
  induction text generalizing skip with
  | nil => cases skip <;> exact List.suffix_refl _
  | cons b text ih =>
    cases skip with
    | succ skip => exact (ih skip).trans (List.suffix_cons b text)
    | zero =>
      unfold dropFrom
      split
      · exact List.suffix_refl _
      · exact (ih _).trans (List.suffix_cons b text)

theorem Blank.trim_infix (text : Bytes) : trim text <:+: text := by
  have hright : trimRight (trimLeft text) <+: trimLeft text := by
    have htail := dropFrom_suffix (encodings.map List.reverse) 0 (trimLeft text).reverse
    have hprefix := List.reverse_prefix.2 htail
    rwa [List.reverse_reverse] at hprefix
  exact hright.isInfix.trans (dropFrom_suffix _ _ _).isInfix

namespace DocCode

/-! ### The renames -/

def Passage.code (p : Passage) : Bytes :=
  (snippet p.opening (p.body.filter isShown)).flatMap (· ++ [byte '\n'])

/-- The rename is that of an identifier of a passage, on one of the lines that are shown.  The
identifier stands on that line where it stands on the line of the code. -/
structure Lands (r : Rename) (p : Passage) (doc : DocLine) : Prop where
  mem : doc ∈ p.body
  shown : isShown doc = true
  line : r.line = doc.line
  column : r.column = -1
  unaliased : r.needsDocAlias = false
  within : r.name <:+: doc.text
  token : ∃ toks id col, Token.lex p.code = .ok toks ∧ id ∈ Token.namesL toks ∧ id.text = r.name ∧
    p.opening.line + id.pos.line = doc.line ∧ id.text <+: (Blank.trim doc.text).drop col ∧
    col = id.pos.col + if id.pos.line = 1 then (Bytes.mark p.code).length else 0

theorem Passage.Of.pairwise {p : Passage} (hp : p.Of docs)
    (h : docs.Pairwise (·.line < ·.line)) : (p.opening :: p.body).Pairwise (·.line < ·.line) := by
  obtain ⟨before, behind, rfl, -⟩ := hp.stands
  have hsplit : before ++ p.opening :: (p.body ++ p.closing :: behind) =
      before ++ (p.opening :: p.body) ++ p.closing :: behind := by simp
  rw [hsplit] at h
  exact (List.pairwise_append.1 (List.pairwise_append.1 h).1).2.1

/-- **Renames in documentation land on their lines.** -/
theorem lands_of_mem_renames {path : Bytes} {tool : Tool} {mode : Mode} {docs : List DocLine}
    (hlines : docs.Pairwise (·.line < ·.line)) (htexts : ∀ doc ∈ docs, byte '\n' ∉ doc.text)
    {r : Rename} (hr : r ∈ Finding.renames (findings { path, tool, mode } none docs)) :
    ∃ p : Passage, p.Of docs ∧ isRenamableTag (blockTag p.opening) = true ∧
      ∃ doc, Lands r p doc := by
  obtain ⟨p, hp, htag, hf⟩ := mem_findings_iff.1 (Finding.mem_renames_iff.1 hr)
  obtain ⟨hunaliased, toks, id, hlex, hid, hren⟩ :=
    Analysis.exists_of_blockFindings (Finding.mem_renames_iff.2 hf)
  have hpairs := hp.pairwise hlines
  have hblock : p.gathered = _ := gathered_of_renamable htag hpairs
  have hcode : p.gathered.code = p.code := by rw [hblock, Passage.code]
  have hfence : p.gathered.fenceLine = p.opening.line := by rw [hblock]
  rw [hcode] at hlex
  rw [hfence] at hren
  have hdocs : ∀ doc ∈ p.body.filter isShown, doc ∈ docs := by
    obtain ⟨before, behind, hdocs, -⟩ := hp.stands
    intro doc hdoc
    simp [hdocs, List.mem_of_mem_filter hdoc]
  have htext : ∀ text ∈ snippet p.opening (p.body.filter isShown), byte '\n' ∉ text := by
    intro text htext hnl
    obtain ⟨i, hi⟩ := List.mem_iff_getElem?.1 htext
    obtain ⟨doc, hdoc, -, rfl⟩ := exists_of_snippet hi (List.ne_nil_of_mem hnl)
    exact htexts doc (hdocs doc hdoc) ((Blank.trim_infix _).subset hnl)
  have hhead := hren.head?_text
  obtain ⟨i, text, col, hline, hi, hstands, hcol⟩ :=
    Token.exists_line_of_mem htext hlex hid (by
    rw [hhead]
    decide)
  have hne : text ≠ [] := by
    rintro rfl
    rw [List.drop_nil, List.prefix_nil] at hstands
    simp [hstands] at hhead
  obtain ⟨doc, hdoc, hdocLine, rfl⟩ := exists_of_snippet hi hne
  obtain ⟨hbody, hshown⟩ := List.mem_filter.1 hdoc
  refine ⟨p, hp, htag, doc, hbody, hshown, ?_, hren.column, hunaliased, ?_, toks, id, col, hlex,
    (Token.safeNamesL_sublist toks).subset hid, hren.name.symm, by omega, hstands, hcol⟩
  · simp only [hren.line, View.line, View.relocate]
    omega
  · rw [hren.name]
    exact (hstands.isInfix.trans (List.drop_suffix _ _).isInfix).trans (Blank.trim_infix _)

/-- Documentation with a hidden line and a line that is not documentation in its code. -/
def hiddenLine : List DocLine :=
  [⟨" Gets it.", 2⟩, ⟨" ```", 3⟩, ⟨" # use a::X;", 4⟩, ⟨" x.get_y();", 6⟩, ⟨" ```", 7⟩]

theorem lands_of_mem_renames_hiddenLine :
    hiddenLine.Pairwise (·.line < ·.line) ∧ (∀ doc ∈ hiddenLine, byte '\n' ∉ doc.text) ∧
      ∃ r ∈ Finding.renames (findings ⟨"src/lib.rs", .calls, .allGetFunctions, {}⟩ none hiddenLine),
        r.line = 6 ∧ ∃ p : Passage, p.Of hiddenLine ∧
          isRenamableTag (blockTag p.opening) = true ∧ ∃ doc, Lands r p doc := by
  let es : List Element :=
    [⟨.blank, "\n"⟩, ⟨.blank, "\n"⟩, ⟨.ident, "x"⟩, ⟨.punct false, "."⟩, ⟨.ident, "get_y"⟩,
      ⟨.opening .paren, "("⟩, ⟨.closing .paren, ")"⟩, ⟨.punct false, ";"⟩, ⟨.blank, "\n"⟩]
  have hreads : Reads (Element.textL es) es := .of_fits (by decide +kernel)
  have hlex : Token.lex "\n\nx.get_y();\n" = .ok
      [.ident "x" ⟨3, 0⟩, .punct (byte '.') false ⟨3, 1⟩, .ident "get_y" ⟨3, 2⟩,
        .group .paren [] ⟨3, 7⟩, .punct (byte ';') false ⟨3, 9⟩] :=
    Token.lex_eq_ok_iff.2 ⟨es, hreads, rfl⟩
  have hlines : hiddenLine.Pairwise (·.line < ·.line) := by decide
  have htexts : ∀ doc ∈ hiddenLine, byte '\n' ∉ doc.text := by decide +kernel
  have hfound : (Finding.renames (findings ⟨"src/lib.rs", .calls, .allGetFunctions, {}⟩ none
      hiddenLine)).map (·.line) = [6] := by
    have hblock : findings ⟨"src/lib.rs", .calls, .allGetFunctions, {}⟩ none hiddenLine =
        Block.findings ⟨"src/lib.rs", .calls, .allGetFunctions, {}⟩
          ⟨true, 3, "\n\nx.get_y();\n", 3⟩ := List.append_nil _
    rw [hblock, Block.findings, hlex]
    decide +kernel
  obtain ⟨r, hr, hline⟩ := List.mem_map.1 (hfound ▸ List.mem_singleton.2 rfl)
  exact ⟨hlines, htexts, r, hr, hline, lands_of_mem_renames hlines htexts hr⟩

end DocCode

end GetterRename
