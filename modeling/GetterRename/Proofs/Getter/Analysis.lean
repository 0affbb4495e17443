import GetterRename.Getter.Analysis
import GetterRename.Proofs.Getter.Stream
import GetterRename.Proofs.Source.Outline

/-!
# The renames of a file

The visits of an outline take the names of the outline in order, and each visit renames the names
it takes or some of them.  Code in documentation is the exception: its renames have no column.  So
the renames of real code stand at names of the file, in order and at different places.

* `Rename.Before` — the order of renames in a file;
* `Analysis.visitAll_append` — visits are made one after the other;
* `Analysis.codeRenames` — the renames that do not come from documentation;
* `Analysis.trace_codeRenames` — they follow the safe names of the file;
* `Analysis.codeRenames_in_order` — they point at identifiers, at increasing places.
-/

namespace GetterRename

open scoped List

/-- One rename stands before another in a file. -/
def Rename.Before (a b : Rename) : Prop := a.line < b.line ∨ a.line = b.line ∧ a.column < b.column

/-! ### Names along the visits -/

def Visit.names : Visit → List Ident
  | doc _ => []
  | definition _ sig => [sig.name]
  | template _ tokens => Token.safeNamesL tokens
  | methodCall _ c | call _ c => [c.name]

def Visit.doc? : Visit → Option DocLine
  | doc line => some line
  | _ => none

theorem Visit.eq_doc_of_doc? {v : Visit} {line : DocLine} (h : v.doc? = some line) :
    v = .doc line := by
  cases v <;> simp [doc?] at h
  rw [h]

theorem Construct.names_visit? (scope : Scope) (head : Construct) :
    (head.visit? scope).toList.flatMap Visit.names = head.names := by
  cases head <;> rfl

namespace Node

mutual

theorem names_visits (scope : Scope) (isItem : Bool) :
    ∀ n : Node, (visits scope isItem n).flatMap Visit.names = names n
  | doc line => by simp [visits, names, Visit.names]
  | macroUse use => by simp [visits, names, Visit.names]
  | construct head inside => by
    simp only [visits, List.flatMap_append, Construct.names_visit?, names_visitsL _ _ inside, names]

theorem names_visitsL (scope : Scope) (isItem : Bool) :
    ∀ ns : List Node, (visitsL scope isItem ns).flatMap Visit.names = namesL ns
  | [] => rfl
  | n :: ns => by
    simp only [visitsL, List.flatMap_append, names_visits scope isItem n,
      names_visitsL scope isItem ns, namesL]

end

end Node

/-! ### Visits one after the other -/

namespace Analysis

/-- The block of documentation that is open behind visits. -/
def blockBehind (ctx : Context) (block : Option DocCode.Block) (vs : List Visit) :
    Option DocCode.Block :=
  vs.foldl (fun block v => (visit ctx block v).1) block

theorem blockBehind_append (ctx : Context) (block : Option DocCode.Block) (xs ys : List Visit) :
    blockBehind ctx block (xs ++ ys) = blockBehind ctx (blockBehind ctx block xs) ys :=
  List.foldl_append

/-- Visits are made one after the other; only the documentation block goes on. -/
theorem visitAll_append (ctx : Context) (block : Option DocCode.Block) (xs ys : List Visit) :
    visitAll ctx block (xs ++ ys) =
      visitAll ctx block xs ++ visitAll ctx (blockBehind ctx block xs) ys := by
  induction xs generalizing block with
  | nil => rfl
  | cons v xs ih =>
    simp only [List.cons_append, visitAll, ih, List.append_assoc]
    rfl

end Analysis

/-! ### Renames along the visits -/

namespace Analysis

/-- The renames among the findings that know their column. -/
def placed (found : List Finding) : List Rename :=
  (Finding.renames found).filter fun r => 0 ≤ r.column

theorem placed_append (xs ys : List Finding) : placed (xs ++ ys) = placed xs ++ placed ys := by
  simp [placed]

/-- Where a place is known by its column, no rename is without one. -/
theorem column_nonneg {ctx : Context} (hview : ctx.view.relocated = false) {rs : List Rename}
    {ids : List Ident} (h : Rename.Trace (Rename.Renames ctx) rs ids) : ∀ r ∈ rs, 0 ≤ r.column := by
  intro r hr
  obtain ⟨id, -, hren⟩ := h.exists_of_mem hr
  simp [hren.column, View.column, hview]

theorem placed_of_trace {ctx : Context} {found : List Finding} {ids : List Ident}
    (hview : ctx.view.relocated = false)
    (h : Rename.Trace (Rename.Renames ctx) (Finding.renames found) ids) :
    Rename.Trace (Rename.Renames ctx) (placed found) ids := by
  have hall : placed found = Finding.renames found := by
    rw [placed, List.filter_eq_self]
    exact fun r hr => decide_eq_true (column_nonneg hview h r hr)
  rwa [hall]

/-- Code in documentation has no columns. -/
theorem placed_blockFindings (ctx : Context) (b : DocCode.Block) : placed (b.findings ctx) = [] := by
  unfold DocCode.Block.findings
  split
  · rfl
  · rw [placed, List.filter_eq_nil_iff]
    intro r hr
    obtain ⟨id, -, hren⟩ := (trace_streamFindings _ _ _).exists_of_mem hr
    simp [hren.column, View.column, View.relocate]

theorem placed_docLine (ctx : Context) (block : Option DocCode.Block) (line : DocLine) :
    placed (DocCode.line ctx block line).2 = [] := by
  unfold DocCode.line
  simp only
  split
  · rfl
  · simp only
    split
    · exact placed_blockFindings ctx _
    · rfl
  · rfl
  · rfl

theorem trace_definition (ctx : Context) (scope : Scope) (sig : Signature) :
    Rename.Trace (Rename.Renames ctx) (Finding.renames (definition ctx scope sig)) [sig.name] := by
  unfold definition
  split
  · exact .nil _
  · rename_i cand hcand
    exact .judge ((Context.of_candidate? hcand).of_same ⟨rfl, rfl, rfl, rfl⟩) _ _

theorem trace_methodCall (ctx : Context) (scope : Scope) (c : CallSite) :
    Rename.Trace (Rename.Renames ctx) (Finding.renames (methodCall ctx scope c)) [c.name] := by
  unfold methodCall
  split
  · exact .nil _
  · rename_i cand hcand
    exact .judge (Context.of_candidate? hcand) _ _

theorem trace_call (ctx : Context) (scope : Scope) (c : CallSite) :
    Rename.Trace (Rename.Renames ctx) (Finding.renames (call ctx scope c)) [c.name] := by
  unfold call
  split
  · exact .nil _
  · rename_i cand hcand
    exact .judge (Context.of_candidate? hcand) _ _

theorem trace_visit {ctx : Context} (hview : ctx.view.relocated = false)
    (block : Option DocCode.Block) (v : Visit) :
    Rename.Trace (Rename.Renames ctx) (placed (visit ctx block v).2) v.names := by
  cases v with
  | doc line =>
    rw [visit, placed_docLine]
    exact .nil _
  | template scope tokens => exact placed_of_trace hview (trace_streamFindings ctx scope tokens)
  | definition scope sig =>
    simp only [visit]
    split
    · exact placed_of_trace hview (trace_definition ctx scope sig)
    · exact .nil _
  | methodCall scope c =>
    simp only [visit]
    split
    · exact placed_of_trace hview (trace_methodCall ctx scope c)
    · exact .nil _
  | call scope c =>
    simp only [visit]
    split
    · exact placed_of_trace hview (trace_call ctx scope c)
    · exact .nil _

theorem trace_visitAll {ctx : Context} (hview : ctx.view.relocated = false)
    (block : Option DocCode.Block) (vs : List Visit) :
    Rename.Trace (Rename.Renames ctx) (placed (visitAll ctx block vs)) (vs.flatMap Visit.names) := by
  induction vs generalizing block with
  | nil => exact .nil _
  | cons v vs ih =>
    simp only [visitAll, placed_append, List.flatMap_cons]
    exact (trace_visit hview block v).append (ih _)

/-- What is found elsewhere has a column and leaves the block of documentation alone. -/
theorem visit_of_no_doc {ctx : Context} (hview : ctx.view.relocated = false)
    (block : Option DocCode.Block) {v : Visit} (hv : v.doc? = none) :
    (visit ctx block v).1 = block ∧ ∀ r ∈ Finding.renames (visit ctx block v).2, 0 ≤ r.column := by
  cases v with
  | doc line => cases hv
  | template scope tokens =>
    exact ⟨rfl, column_nonneg hview (trace_streamFindings ctx scope tokens)⟩
  | definition scope sig =>
    refine ⟨rfl, ?_⟩
    simp only [visit]
    split
    · exact column_nonneg hview (trace_definition ctx scope sig)
    · simp
  | methodCall scope c =>
    refine ⟨rfl, ?_⟩
    simp only [visit]
    split
    · exact column_nonneg hview (trace_methodCall ctx scope c)
    · simp
  | call scope c =>
    refine ⟨rfl, ?_⟩
    simp only [visit]
    split
    · exact column_nonneg hview (trace_call ctx scope c)
    · simp

/-- A rename without a column comes from a block of code in documentation. -/
theorem exists_block_of_mem {ctx : Context} (hview : ctx.view.relocated = false)
    {block : Option DocCode.Block} {vs : List Visit} {r : Rename}
    (hr : r ∈ Finding.renames (visitAll ctx block vs)) (hcolumn : r.column < 0) :
    ∃ b : DocCode.Block, r ∈ Finding.renames (b.findings ctx) := by
  induction vs generalizing block with
  | nil => exact nomatch hr
  | cons v vs ih =>
    simp only [visitAll, Finding.renames_append, List.mem_append] at hr
    rcases hr with hr | hr
    · cases hv : v.doc? with
      | none =>
        have := (visit_of_no_doc hview block hv).2 r hr
        omega
      | some line =>
        obtain rfl := Visit.eq_doc_of_doc? hv
        unfold visit DocCode.line at hr
        simp only at hr
        split at hr
        · exact nomatch hr
        · rename_i b _
          simp only at hr
          split at hr
          · exact ⟨b, hr⟩
          · exact nomatch hr
        · exact nomatch hr
        · exact nomatch hr
    · exact ih hr

/-- Code in documentation gets no alias, and what it renames are names of the code of a block, below
the fence of the block. -/
theorem exists_of_blockFindings {ctx : Context} {b : DocCode.Block} {r : Rename}
    (h : r ∈ Finding.renames (b.findings ctx)) :
    r.needsDocAlias = false ∧ ∃ (toks : List Token) (id : Ident),
      Token.lex b.code = .ok toks ∧ id ∈ Token.safeNamesL toks ∧
        r.Renames { ctx with view := ctx.view.relocate b.fenceLine } id := by
  unfold DocCode.Block.findings at h
  split at h
  · exact nomatch h
  · rename_i toks hlex
    obtain ⟨s, -, hstream⟩ := (trace_sites _ _ _).exists_of_mem h
    obtain ⟨id, hid, hren⟩ := (trace_streamFindings _ _ _).exists_of_mem h
    exact ⟨hstream.unaliased rfl, toks, id, hlex, hid, hren⟩

/-- A rename that needs an alias stands in real code. -/
theorem column_of_needsDocAlias {path : Bytes} {tool : Tool} {mode : Mode} {nodes : List Node}
    {r : Rename} (hr : r ∈ Finding.renames (findings { path, tool, mode } nodes))
    (halias : r.needsDocAlias = true) : 0 ≤ r.column := by
  by_contra hcolumn
  obtain ⟨b, hb⟩ := exists_block_of_mem rfl hr (by omega)
  rw [(exists_of_blockFindings hb).1] at halias
  exact nomatch halias

/-- The renames of real code in the order they are found: those that do not come from code in
documentation. -/
def codeRenames (path : Bytes) (tool : Tool) (mode : Mode) (nodes : List Node) : List Rename :=
  placed (findings { path, tool, mode } nodes)

/-- The renames of real code follow the safe names of the file. -/
theorem trace_codeRenames (path : Bytes) (tool : Tool) (mode : Mode) (toks : List Token) :
    Rename.Trace (Rename.Renames { path, tool, mode }) (codeRenames path tool mode (Outline.read toks))
      (Token.safeNamesL toks) := by
  have h := @trace_visitAll { path, tool, mode } rfl none
    (Node.visitsL .file false (Outline.read toks))
  rw [Node.names_visitsL] at h
  exact h.mono (Outline.namesL_read_sublist toks)

theorem pairwise_codeRenames (path : Bytes) (tool : Tool) (mode : Mode) {src : Bytes}
    {toks : List Token} (hlex : Token.lex src = .ok toks) :
    (codeRenames path tool mode (Outline.read toks)).Pairwise Rename.Before := by
  have htrace := (trace_codeRenames path tool mode toks).mono (Token.safeNamesL_sublist toks)
  refine htrace.pairwise (Token.pairwise_namesL hlex) ?_
  rintro r s id jd hr hs hbefore
  simp only [Rename.Before, hr.line, hr.column, hs.line, hs.column, View.line, View.column]
  simp only [Pos.Before] at hbefore
  simp only [Bool.false_eq_true, if_false]
  omega

/-- **Renames of real code, in order.**  Each one has the text and the place of an identifier of the
file, at some depth, whose name starts with `get_`; and each one stands behind the one before. -/
theorem codeRenames_in_order {src path : Bytes} {tool : Tool} {mode : Mode} {nodes : List Node}
    (h : Outline.ofSource src = .ok nodes) :
    ∃ toks, Token.lex src = .ok toks ∧
      (∀ r ∈ codeRenames path tool mode nodes, ∃ id ∈ Token.namesL toks, r.name = id.text ∧
        r.line = id.pos.line ∧ r.column = id.pos.col ∧
        Bytes.startsWith r.name Naming.getHead = true) ∧
      (codeRenames path tool mode nodes).Pairwise Rename.Before := by
  cases hlex : Token.lex src with
  | error e =>
    rw [Outline.ofSource, hlex] at h
    simp [Except.map] at h
  | ok toks =>
    obtain rfl : Outline.read toks = nodes := by
      rw [Outline.ofSource, hlex] at h
      exact Except.ok.inj h
    refine ⟨toks, rfl, fun r hr => ?_, pairwise_codeRenames path tool mode hlex⟩
    have htrace := (trace_codeRenames path tool mode toks).mono (Token.safeNamesL_sublist toks)
    obtain ⟨id, hid, hren⟩ := htrace.exists_of_mem hr
    obtain ⟨suffix, _, hsuffix, -⟩ := hren.newName
    refine ⟨id, hid, hren.name, ?_, hren.column, ?_⟩
    · simp [hren.line, View.line]
    · rw [hren.name]
      by_contra hno
      simp [Naming.suffix?, Bytes.after?, hno] at hsuffix

/-- The tokens of the call `get_x(y.get_z())`. -/
def nestedCalls : List Token :=
  [.ident "get_x" ⟨1, 0⟩,
    .group .paren
      [.ident "y" ⟨1, 6⟩, .punct (byte '.') false ⟨1, 7⟩, .ident "get_z" ⟨1, 8⟩,
        .group .paren [] ⟨1, 13⟩] ⟨1, 5⟩]

theorem lex_nestedCalls : Token.lex "get_x(y.get_z())" = .ok nestedCalls := by
  let es : List Element :=
    [⟨.ident, "get_x"⟩, ⟨.opening .paren, "("⟩, ⟨.ident, "y"⟩, ⟨.punct false, "."⟩,
      ⟨.ident, "get_z"⟩, ⟨.opening .paren, "("⟩, ⟨.closing .paren, ")"⟩, ⟨.closing .paren, ")"⟩]
  have hreads : Reads (Element.textL es) es := .of_fits (by decide +kernel)
  exact Token.lex_eq_ok_iff.2 ⟨es, hreads, rfl⟩

theorem codeRenames_in_order_nestedCalls :
    ∃ toks, Token.lex "get_x(y.get_z())" = .ok toks ∧
      (∀ r ∈ codeRenames "src/lib.rs" .calls .allGetFunctions (Outline.read nestedCalls),
        ∃ id ∈ Token.namesL toks, r.name = id.text ∧ r.line = id.pos.line ∧
          r.column = id.pos.col ∧ Bytes.startsWith r.name Naming.getHead = true) ∧
      (codeRenames "src/lib.rs" .calls .allGetFunctions (Outline.read nestedCalls)).Pairwise
        Rename.Before :=
  codeRenames_in_order (by rw [Outline.ofSource, lex_nestedCalls]; rfl)

end Analysis

end GetterRename
