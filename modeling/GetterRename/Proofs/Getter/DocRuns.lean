import GetterRename.Proofs.Getter.Analysis
import GetterRename.Proofs.Getter.DocCode

/-!
# Runs of documentation lines

The documentation lines of a file are read one after the other, whatever stands between them: a
block that the documentation of one item leaves open goes on in that of the next one.  So a run of
adjacent lines is read on its own where the fences of the runs before it come in pairs.

* `Node.docRunsL` — the runs of documentation lines of a file;
* `Analysis.docRenames` — the renames found in documentation;
* `Analysis.docRenames_eq` — they are those of its lines in source order;
* `Analysis.docRenames_by_runs` — the renames run by run, and when a run is read on its own;
* `Analysis.docRenames_across_items` — a block that is left open and goes on behind two items.
-/

namespace GetterRename

/-! ### Runs -/

/-- The runs that end with a run, which may be empty. -/
def DocLine.flush (run : List DocLine) : List (List DocLine) := if run = [] then [] else [run]

theorem DocLine.flatten_flush (run : List DocLine) : (flush run).flatten = run := by
  unfold flush
  split
  · rename_i h
    rw [h, List.flatten_nil]
  · rw [List.flatten_singleton]

namespace Node

def doc? : Node → Option DocLine
  | doc line => some line
  | _ => none

mutual

def docRuns : Node → List (List DocLine)
  | doc _ | macroUse _ => []
  | construct _ inside => docRunsL [] inside

/-- The maximal runs of adjacent documentation lines in a list of nodes and in the lists inside
them, in source order. The lines of `run` stand right in front of the list. -/
def docRunsL (run : List DocLine) : List Node → List (List DocLine)
  | [] => DocLine.flush run
  | n :: ns =>
    match n.doc? with
    | some line => docRunsL (run ++ [line]) ns
    | none => DocLine.flush run ++ docRuns n ++ docRunsL [] ns

end

mutual

theorem flatten_docRuns (scope : Scope) (isItem : Bool) :
    ∀ n : Node, n.doc?.toList ++ (docRuns n).flatten = (visits scope isItem n).filterMap Visit.doc?
  | doc _ | macroUse _ => rfl
  | construct head inside => by
    have hself : (head.visit? (head.scopeInside scope isItem)).toList.filterMap Visit.doc? = [] :=
      by cases head <;> rfl
    rw [visits, List.filterMap_append, hself, docRuns,
      flatten_docRunsL (head.scopeInside scope isItem) head.holdsItems [] inside]
    rfl

theorem flatten_docRunsL (scope : Scope) (isItem : Bool) (run : List DocLine) :
    ∀ ns : List Node, (docRunsL run ns).flatten =
      run ++ (visitsL scope isItem ns).filterMap Visit.doc?
  | [] => by simp [docRunsL, visitsL, DocLine.flatten_flush]
  | n :: ns => by
    have hn := flatten_docRuns scope isItem n
    rw [visitsL, List.filterMap_append, ← hn]
    cases n with
    | doc line =>
      have hrest := flatten_docRunsL scope isItem (run ++ [line]) ns
      simpa [docRunsL, doc?, docRuns] using hrest
    | macroUse _ | construct _ _ =>
      have hrest := flatten_docRunsL scope isItem [] ns
      simp [docRunsL, doc?, DocLine.flatten_flush, hrest]

end

end Node

namespace DocCode

/-- **Run by run**, each one from the block that those before it leave open. -/
theorem findings_flatten (ctx : Context) (block : Option Block) (runs : List (List DocLine)) :
    findings ctx block runs.flatten =
      ((runs.scanl (after ctx) block).zip runs).flatMap fun p => findings ctx p.1 p.2 := by
  induction runs generalizing block with
  | nil => rfl
  | cons run runs ih =>
    rw [List.flatten_cons, findings_append, ih, List.scanl_cons, List.zip_cons_cons,
      List.flatMap_cons]

theorem after_flatten (ctx : Context) (block : Option Block) (runs : List (List DocLine)) :
    after ctx block runs.flatten = runs.foldl (after ctx) block := by
  induction runs generalizing block with
  | nil => rfl
  | cons run runs ih => rw [List.flatten_cons, after_append, ih, List.foldl_cons]

/-- Where the fences of each run come in pairs, but for the last one, all runs are read on their
own. -/
theorem findings_flatten_of_even {ctx : Context} {runs : List (List DocLine)}
    (h : ∀ run ∈ runs.dropLast, Even (run.countP isFence)) :
    findings ctx none runs.flatten = runs.flatMap (findings ctx none) := by
  induction runs with
  | nil => rfl
  | cons run runs ih =>
    rw [List.flatten_cons, findings_append, List.flatMap_cons]
    cases runs with
    | nil => rfl
    | cons next runs =>
      rw [List.dropLast_cons_cons, List.forall_mem_cons] at h
      have hclosed : after ctx none run = none := after_eq_none_iff.2 (by simp [h.1])
      rw [hclosed, ih h.2]

end DocCode

namespace Analysis

/-- The renames found in documentation: those without a column. -/
def docRenames (ctx : Context) (nodes : List Node) : List Rename :=
  (Finding.renames (findings ctx nodes)).filter (·.column < 0)

theorem docRenames_visitAll {ctx : Context} (hview : ctx.view.relocated = false)
    (block : Option DocCode.Block) (vs : List Visit) :
    (Finding.renames (visitAll ctx block vs)).filter (·.column < 0) =
      Finding.renames (DocCode.findings ctx block (vs.filterMap Visit.doc?)) := by
  induction vs generalizing block with
  | nil => rfl
  | cons v vs ih =>
    rw [visitAll, Finding.renames_append, List.filter_append, ih]
    cases hv : v.doc? with
    | none =>
      obtain ⟨hblock, hcolumn⟩ := visit_of_no_doc hview block hv
      have hnone : (Finding.renames (visit ctx block v).2).filter (·.column < 0) = [] :=
        List.filter_eq_nil_iff.2 fun r hr => by simpa using hcolumn r hr
      rw [hnone, hblock, List.filterMap_cons_none hv, List.nil_append]
    | some doc =>
      obtain rfl := Visit.eq_doc_of_doc? hv
      have hall : (Finding.renames (visit ctx block (.doc doc)).2).filter (·.column < 0) =
          Finding.renames (DocCode.line ctx block doc).2 := by
        have hno := List.filter_eq_nil_iff.1 (placed_docLine ctx block doc)
        exact List.filter_eq_self.2 fun r hr => by simpa using hno r hr
      rw [hall, List.filterMap_cons_some hv, DocCode.findings, Finding.renames_append]
      rfl

/-- The renames in documentation are those of its lines in source order. -/
theorem docRenames_eq (path : Bytes) (tool : Tool) (mode : Mode) (nodes : List Node) :
    docRenames { path, tool, mode } nodes = Finding.renames
      (DocCode.findings { path, tool, mode } none (Node.docRunsL [] nodes).flatten) := by
  rw [Node.flatten_docRunsL .file false, List.nil_append]
  exact docRenames_visitAll rfl none _

/-- **Renames in documentation, run by run.**  Each run of adjacent lines is read from the block
that the runs before it leave open.  None is open where an even number of fences stands in them, and
the run is then read on its own; so all runs are, if the fences of each one but the last come in
pairs. -/
theorem docRenames_by_runs (path : Bytes) (tool : Tool) (mode : Mode) (nodes : List Node) :
    let ctx : Context := { path, tool, mode }
    let runs := Node.docRunsL [] nodes
    let blocks := runs.scanl (DocCode.after ctx) none
    docRenames ctx nodes =
        ((blocks.zip runs).flatMap fun p => Finding.renames (DocCode.findings ctx p.1 p.2)) ∧
      (∀ i < runs.length,
        blocks[i]? = some none ↔ Even ((runs.take i).flatten.countP DocCode.isFence)) ∧
      ((∀ run ∈ runs.dropLast, Even (run.countP DocCode.isFence)) → docRenames ctx nodes =
        runs.flatMap fun run => Finding.renames (DocCode.findings ctx none run)) := by
  intro ctx runs blocks
  have hrenames : ∀ {ι : Type} (l : List ι) (f : ι → List Finding),
      Finding.renames (l.flatMap f) = l.flatMap fun x => Finding.renames (f x) := by
    intro ι l f
    simp only [Finding.renames, List.filterMap_flatMap]
  have heq : docRenames ctx nodes = Finding.renames (DocCode.findings ctx none runs.flatten) :=
    docRenames_eq path tool mode nodes
  refine ⟨?_, fun i hi => ?_, fun heven => ?_⟩
  · rw [heq, DocCode.findings_flatten, hrenames]
  · have hblock : blocks[i]? = some (DocCode.after ctx none (runs.take i).flatten) := by
      rw [List.getElem?_scanl, if_pos (Nat.le_of_lt hi), DocCode.after_flatten]
    rw [hblock, Option.some_inj, DocCode.after_eq_none_iff]
    simp
  · rw [heq, DocCode.findings_flatten_of_even heven, hrenames]

/-- The tokens of two functions. The documentation of the first one leaves a block open. -/
def openBlock : List Token :=
  [.doc " ```" ⟨1, 0⟩, .ident "fn" ⟨2, 0⟩, .ident "a" ⟨2, 3⟩, .group .paren [] ⟨2, 4⟩,
    .group .brace [] ⟨2, 7⟩, .doc " get_x();" ⟨3, 0⟩, .doc " ```" ⟨4, 0⟩, .ident "fn" ⟨5, 0⟩,
    .ident "b" ⟨5, 3⟩, .group .paren [] ⟨5, 4⟩, .group .brace [] ⟨5, 7⟩]

theorem lex_openBlock :
    Token.lex "/// ```\nfn a() \x7b\x7d\n/// get_x();\n/// ```\nfn b() \x7b\x7d\n" =
      .ok openBlock := by
  let es : List Element :=
    [⟨.lineComment, "/// ```"⟩, ⟨.blank, "\n"⟩, ⟨.ident, "fn"⟩, ⟨.blank, " "⟩, ⟨.ident, "a"⟩,
      ⟨.opening .paren, "("⟩, ⟨.closing .paren, ")"⟩, ⟨.blank, " "⟩, ⟨.opening .brace, "\x7b"⟩,
      ⟨.closing .brace, "\x7d"⟩, ⟨.blank, "\n"⟩, ⟨.lineComment, "/// get_x();"⟩, ⟨.blank, "\n"⟩,
      ⟨.lineComment, "/// ```"⟩, ⟨.blank, "\n"⟩, ⟨.ident, "fn"⟩, ⟨.blank, " "⟩, ⟨.ident, "b"⟩,
      ⟨.opening .paren, "("⟩, ⟨.closing .paren, ")"⟩, ⟨.blank, " "⟩, ⟨.opening .brace, "\x7b"⟩,
      ⟨.closing .brace, "\x7d"⟩, ⟨.blank, "\n"⟩]
  have hreads : Reads (Element.textL es) es := .of_fits (by decide +kernel)
  exact Token.lex_eq_ok_iff.2 ⟨es, hreads, rfl⟩

/-- A block that the documentation of one function leaves open goes on in that of the next one: on
its own neither has a getter to rename. -/
theorem docRenames_across_items :
    let ctx : Context := { path := "src/lib.rs", tool := .calls, mode := .allGetFunctions }
    ∃ nodes, Outline.ofSource
        "/// ```\nfn a() \x7b\x7d\n/// get_x();\n/// ```\nfn b() \x7b\x7d\n" = .ok nodes ∧
      docRenames ctx nodes ≠ (Node.docRunsL [] nodes).flatMap fun run =>
        Finding.renames (DocCode.findings ctx none run) := by
  intro ctx
  let es : List Element :=
    [⟨.blank, "\n"⟩, ⟨.ident, "get_x"⟩, ⟨.opening .paren, "("⟩, ⟨.closing .paren, ")"⟩,
      ⟨.punct false, ";"⟩, ⟨.blank, "\n"⟩]
  have hreads : Reads (Element.textL es) es := .of_fits (by decide +kernel)
  have hlex : Token.lex "\nget_x();\n" = .ok [.ident "get_x" ⟨2, 0⟩, .group .paren [] ⟨2, 5⟩,
      .punct (byte ';') false ⟨2, 7⟩] := Token.lex_eq_ok_iff.2 ⟨es, hreads, rfl⟩
  refine ⟨Outline.read openBlock, by rw [Outline.ofSource, lex_openBlock]; rfl, ?_⟩
  have hruns : Node.docRunsL [] (Outline.read openBlock) =
      [[⟨" ```", 1⟩], [⟨" get_x();", 3⟩, ⟨" ```", 4⟩]] := by decide +kernel
  have hopened : DocCode.line ctx none ⟨" ```", 1⟩ = (some ⟨true, 1, [], 0⟩, []) := by
    decide +kernel
  have hinside : DocCode.line ctx (some ⟨true, 1, [], 0⟩) ⟨" get_x();", 3⟩ =
      (some ⟨true, 1, "\nget_x();\n", 2⟩, []) := by decide +kernel
  have hclosed : DocCode.line ctx (some ⟨true, 1, "\nget_x();\n", 2⟩) ⟨" ```", 4⟩ =
      (none, DocCode.Block.findings ctx ⟨true, 1, "\nget_x();\n", 2⟩) :=
    DocCode.line_closing (by decide +kernel)
  have hblock : DocCode.findings ctx none [⟨" ```", 1⟩, ⟨" get_x();", 3⟩, ⟨" ```", 4⟩] =
      DocCode.Block.findings ctx ⟨true, 1, "\nget_x();\n", 2⟩ := by
    simp only [DocCode.findings, hopened, hinside, hclosed, List.nil_append, List.append_nil]
  have halone : ([[⟨" ```", 1⟩], [⟨" get_x();", 3⟩, ⟨" ```", 4⟩]].flatMap fun run =>
      Finding.renames (DocCode.findings ctx none run)) = [] := by decide +kernel
  have hall : docRenames ctx (Outline.read openBlock) =
      Finding.renames (DocCode.findings ctx none [⟨" ```", 1⟩, ⟨" get_x();", 3⟩, ⟨" ```", 4⟩]) := by
    rw [docRenames_eq, hruns]
    rfl
  rw [hall, hruns, halone, hblock, DocCode.Block.findings, hlex]
  decide +kernel

end Analysis

end GetterRename
