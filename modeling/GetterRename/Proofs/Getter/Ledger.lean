import GetterRename.Proofs.Getter.Analysis
import GetterRename.Proofs.Getter.Store

/-!
# What the ledger holds

Recording puts every rename behind those of its line and of the lines above.  When nothing is
refused the ledger holds all the renames found, sorted by their lines.  Calls are never refused, and
definitions are not when each has a line of its own.

* `Analysis.error_eq_none_iff` — when nothing is refused;
* `Analysis.pending_record` — the ledger behind a recording;
* `Analysis.pending_of_columns` — the ledger of a file whose renames all know their column.
-/

namespace GetterRename

namespace Analysis

theorem record_rename {ledger : Ledger} {r : Rename} {found : List Finding}
    (h : (record ledger (.rename r :: found)).2.2 = none) :
    (record ledger (.rename r :: found)).1 = (record (ledger.push r) found).1 ∧
      (record (ledger.push r) found).2.2 = none := by
  simp only [record] at h ⊢
  split at h
  · rename_i next hadd
    obtain rfl := (Ledger.add_eq_ok_iff.1 hadd).2
    exact ⟨rfl, h⟩
  · simp at h

theorem record_tool (ledger : Ledger) (found : List Finding) :
    (record ledger found).1.tool = ledger.tool := by
  induction found generalizing ledger with
  | nil => rfl
  | cons f found ih =>
    cases f with
    | note n => exact ih ledger
    | rename r =>
      simp only [record]
      split
      · rename_i next hadd
        obtain rfl := (Ledger.add_eq_ok_iff.1 hadd).2
        exact ih _
      · exact ih ledger

/-- Calls are never refused. -/
theorem error_of_calls {ledger : Ledger} (h : ledger.tool = .calls) (found : List Finding) :
    (record ledger found).2.2 = none := by
  induction found generalizing ledger with
  | nil => rfl
  | cons f found ih =>
    cases f with
    | note n => exact ih h
    | rename r =>
      have hadd : ledger.add r = .ok (ledger.push r) := by simp [Ledger.add, h]
      simp only [record, hadd]
      exact ih h

/-- Nothing is refused where no definition comes upon a line that has one. -/
theorem error_eq_none_iff (ledger : Ledger) (found : List Finding) :
    (record ledger found).2.2 = none ↔ (ledger.tool = .definitions →
      (∀ x ∈ ledger.pending, ∀ r ∈ Finding.renames found, x.line ≠ r.line) ∧
        (Finding.renames found).Pairwise fun a b => a.line ≠ b.line) := by
  induction found generalizing ledger with
  | nil => simp [record]
  | cons f found ih =>
    cases f with
    | note n => exact ih ledger
    | rename r =>
      have hcons : Finding.renames (.rename r :: found) = r :: Finding.renames found := rfl
      rw [hcons, List.pairwise_cons]
      simp only [record, List.forall_mem_cons]
      cases hadd : ledger.add r with
      | error e =>
        simp only [reduceCtorEq, false_iff]
        intro hapart
        have hok := Ledger.add_eq_ok_iff.2 ⟨fun htool x hx => ((hapart htool).1 x hx).1, rfl⟩
        rw [hok] at hadd
        exact nomatch hadd
      | ok next =>
        obtain ⟨hfree, rfl⟩ := Ledger.add_eq_ok_iff.1 hadd
        simp only [ih, Ledger.mem_pending_push, forall_eq_or_imp]
        refine forall_congr' fun htool => ?_
        -- `r` is one of those met now, and one of the pending ones then
        have hr := hfree htool
        constructor
        · rintro ⟨⟨hbehind, hpending⟩, hrest⟩
          exact ⟨fun x hx => ⟨hr x hx, hpending x hx⟩, hbehind, hrest⟩
        · rintro ⟨hpending, hbehind, hrest⟩
          exact ⟨⟨hbehind, fun x hx => (hpending x hx).2⟩, hrest⟩

/-- **What the ledger holds** when nothing is refused: the renames found, sorted by their lines. -/
theorem pending_record {ledger : Ledger} {found : List Finding} {before : List Rename}
    (hbefore : ledger.pending = Rename.sortByLine before)
    (h : (record ledger found).2.2 = none) :
    (record ledger found).1.pending = Rename.sortByLine (before ++ Finding.renames found) := by
  induction found generalizing ledger before with
  | nil => simpa [record] using hbefore
  | cons f found ih =>
    cases f with
    | note n => exact ih hbefore h
    | rename r =>
      obtain ⟨heq, hnone⟩ := record_rename h
      have hcons : before ++ Finding.renames (.rename r :: found) =
          before ++ [r] ++ Finding.renames found := by
        rw [List.append_assoc]
        rfl
      rw [heq, hcons]
      exact ih (by rw [Ledger.pending_push, hbefore, Rename.sortByLine_append]) hnone

theorem pending_run {path : Bytes} {tool : Tool} {mode : Mode} {nodes : List Node}
    (h : (run path tool mode nodes).error = none) :
    (run path tool mode nodes).ledger.pending =
      Rename.sortByLine (Finding.renames (findings { path, tool, mode } nodes)) :=
  @pending_record (.start path tool) _ [] List.mergeSort_nil.symm h

/-- Of definitions that are not refused, each has a line of its own. -/
theorem lines_of_definitions {path : Bytes} {mode : Mode} {nodes : List Node}
    (herror : (run path .definitions mode nodes).error = none) :
    (run path .definitions mode nodes).ledger.pending.Pairwise fun a b => a.line ≠ b.line := by
  rw [pending_run herror]
  have hlines := ((error_eq_none_iff (.start path .definitions) _).1 herror rfl).2
  exact (Rename.perm_sortByLine _).symm.pairwise hlines Ne.symm

/-- When all pending renames know their column, they are the renames of real code, in order. -/
theorem pending_of_columns {path : Bytes} {tool : Tool} {mode : Mode} {src : Bytes}
    {toks : List Token} (hlex : Token.lex src = .ok toks)
    (herror : (run path tool mode (Outline.read toks)).error = none)
    (hcolumn : ∀ r ∈ (run path tool mode (Outline.read toks)).ledger.pending, 0 ≤ r.column) :
    (run path tool mode (Outline.read toks)).ledger.pending =
        codeRenames path tool mode (Outline.read toks) ∧
      (codeRenames path tool mode (Outline.read toks)).Pairwise Rename.Before := by
  have hpending := pending_run herror
  have hplaced : codeRenames path tool mode (Outline.read toks) =
      Finding.renames (findings { path, tool, mode } (Outline.read toks)) := by
    rw [codeRenames, placed, List.filter_eq_self]
    intro r hr
    rw [hpending] at hcolumn
    simpa using hcolumn r ((Rename.perm_sortByLine _).mem_iff.2 hr)
  have hordered := pairwise_codeRenames path tool mode hlex
  have hsorted : Rename.InLineOrder (codeRenames path tool mode (Outline.read toks)) := by
    refine hordered.imp fun {a b} hab => ?_
    unfold Rename.Before at hab
    omega
  refine ⟨?_, hordered⟩
  rw [hpending, ← hplaced]
  exact (Rename.eq_sortByLine hsorted fun _ => rfl).symm

end Analysis

end GetterRename
