import GetterRename.Proofs.Getter.Comparison
import GetterRename.Proofs.Getter.Ledger

/-!
# Conservative mode and all get functions

The mode is looked at in one place: when a candidate is judged, conservative mode lets an objection
to its shape stand.  So conservative mode finds some of the renames that the other mode finds, in
the same order and with the same alias decisions.  Fewer definitions cannot collide where more of
them did not, and sorting the renames by line keeps the one list in the other.

* `Context.compares_conservative` — what the two modes make of a candidate;
* `Analysis.renames_sublist` — the renames found;
* `Analysis.run_conservative` — the ledger of a file.
-/

namespace GetterRename

open scoped List

/-- Conservative mode renames a candidate as the other mode does, or not at all. -/
theorem Context.compares_conservative (path : Bytes) (tool : Tool) (scope : Scope) :
    Context.Compares (· <+ ·) { path, tool, mode := .conservative }
      { path, tool, mode := .allGetFunctions } scope where
  tool := rfl
  view := rfl
  nil := .slnil
  append h h' := h.append h'
  judge view cand objection := by
    unfold judge
    cases Naming.renameSuffix cand.suffix cand.returnsBool with
    | error refusal => exact .slnil
    | ok newName =>
      have hany : ({ path, tool, mode := .allGetFunctions, view } : Context).mustCheckShape newName =
          false := rfl
      simp only [hany]
      split
      · exact List.nil_sublist _
      · exact List.Sublist.refl _

namespace Analysis

theorem renames_sublist (path : Bytes) (tool : Tool) (nodes : List Node) :
    Finding.renames (findings { path, tool, mode := .conservative } nodes) <+
      Finding.renames (findings { path, tool, mode := .allGetFunctions } nodes) :=
  renames_findings (Context.compares_conservative path tool) nodes

/-- **Conservative mode only removes renames.**  Where the analysis of an outline, that of a source
or any other, succeeds for all get functions, it succeeds in conservative mode; and the renames of
conservative mode, sorted by line, are some of those for all get functions, in the same order. -/
theorem run_conservative {path : Bytes} {tool : Tool} {nodes : List Node}
    (h : (run path tool .allGetFunctions nodes).error = none) :
    (run path tool .conservative nodes).error = none ∧
      (run path tool .conservative nodes).ledger.pending <+
        (run path tool .allGetFunctions nodes).ledger.pending := by
  have hsub := renames_sublist path tool nodes
  have hnone : (run path tool .conservative nodes).error = none := by
    refine (error_eq_none_iff (.start path tool) _).2 fun htool => ?_
    obtain ⟨-, hapart⟩ := (error_eq_none_iff (.start path tool) _).1 h htool
    exact ⟨fun _ hx => absurd hx List.not_mem_nil, hapart.sublist hsub⟩
  refine ⟨hnone, ?_⟩
  rw [pending_run hnone, pending_run h]
  exact Rename.sortByLine_sublist hsub

/-- The tokens of a trait with the methods `get_a(&self)` and, a line below, `get_b(&self, k: K)`. -/
def keyedTrait : List Token :=
  [.ident "trait" ⟨1, 0⟩, .ident "T" ⟨1, 6⟩,
    .group .brace
      [.ident "fn" ⟨2, 0⟩, .ident "get_a" ⟨2, 3⟩,
        .group .paren [.punct (byte '&') false ⟨2, 9⟩, .ident "self" ⟨2, 10⟩] ⟨2, 8⟩,
        .punct (byte ';') false ⟨2, 15⟩,
        .ident "fn" ⟨3, 0⟩, .ident "get_b" ⟨3, 3⟩,
        .group .paren
          [.punct (byte '&') false ⟨3, 9⟩, .ident "self" ⟨3, 10⟩, .punct (byte ',') false ⟨3, 14⟩,
            .ident "k" ⟨3, 16⟩, .punct (byte ':') false ⟨3, 17⟩, .ident "K" ⟨3, 19⟩] ⟨3, 8⟩,
        .punct (byte ';') false ⟨3, 21⟩] ⟨1, 8⟩]

theorem run_conservative_keyedTrait :
    (run "src/lib.rs" .definitions .conservative (Outline.read keyedTrait)).error = none ∧
      (run "src/lib.rs" .definitions .conservative (Outline.read keyedTrait)).ledger.pending <+
        (run "src/lib.rs" .definitions .allGetFunctions (Outline.read keyedTrait)).ledger.pending := by
  have h : (run "src/lib.rs" .definitions .allGetFunctions (Outline.read keyedTrait)).error = none := by
    decide +kernel
  exact run_conservative h

end Analysis

end GetterRename
