import GetterRename.Proofs.Getter.Ledger

/-!
# Definitions that share a line

Renames are recorded in the order in which they are found, wherever they come from.  As long as no
definition comes upon a line that is taken, the ledger holds what was found so far, so a definition
that is refused is the first one on a taken line, and what the refusal names is the earliest rename
of that line.  What is found behind a refusal does not matter any more.

* `Rename.FirstCollision` — the first of some renames whose line is taken;
* `Analysis.firstCollision_of_record` — a refusal reports it;
* `Analysis.run_refuses_collisions` — when the analysis of a file is refused, and what it holds when
  it is not.
-/

namespace GetterRename

/-- Among the renames found `second` is the first whose line is taken by another one before it, and
`first` is the earliest on that line. -/
structure Rename.FirstCollision (found : List Rename) (first second : Rename) : Prop where
  taken : ∃ before after, found = before ++ second :: after ∧ (before.map (·.line)).Nodup ∧
    second.line ∈ before.map (·.line)
  earliest : (Rename.onLine second.line found).head? = some first

theorem Rename.onLine_of_nodup {l : List Rename} (h : (l.map (·.line)).Nodup) {r : Rename}
    (hr : r ∈ l) : onLine r.line l = [r] := by
  induction l with
  | nil => exact nomatch hr
  | cons x l ih =>
    obtain ⟨hx, hl⟩ := List.nodup_cons.1 h
    rcases List.mem_cons.1 hr with rfl | hr
    · have hrest : onLine r.line l = [] :=
        List.filter_eq_nil_iff.2 fun y hy hline => hx (List.mem_map.2 ⟨y, hy, by simpa using hline⟩)
      rw [onLine_cons_of_eq rfl, hrest]
    · have hne : x.line ≠ r.line := fun hline => hx (List.mem_map.2 ⟨r, hr, hline.symm⟩)
      rw [onLine_cons_of_ne hne, ih hl hr]

namespace Analysis

/-- A definition on a taken line is the first one there that is refused. -/
theorem firstCollision_of_taken {before after : List Rename} {first second : Rename}
    (hnodup : (before.map (·.line)).Nodup) (hfirst : first ∈ before)
    (hline : first.line = second.line) :
    Rename.FirstCollision (before ++ second :: after) first second where
  taken := ⟨before, after, rfl, hnodup, hline ▸ List.mem_map_of_mem hfirst⟩
  earliest := by
    rw [Rename.onLine_append, ← hline, Rename.onLine_of_nodup hnodup hfirst]
    rfl

/-- **A refusal reports the first collision**, where the ledger holds the renames `before` and each
of them has a line of its own. -/
theorem firstCollision_of_record {ledger : Ledger} {before : List Rename} {found : List Finding}
    {e : DuplicateDefinition} (htool : ledger.tool = .definitions)
    (hpending : ledger.pending = Rename.sortByLine before)
    (hnodup : (before.map (·.line)).Nodup) (h : (record ledger found).2.2 = some e) :
    ∃ first second, Rename.FirstCollision (before ++ Finding.renames found) first second ∧
      e = ⟨ledger.path, second.line, first.name, second.name⟩ := by
  have hmem : ∀ x, x ∈ ledger.pending ↔ x ∈ before := fun x => by
    rw [hpending, (Rename.perm_sortByLine before).mem_iff]
  induction found generalizing ledger before with
  | nil => exact nomatch h
  | cons f found ih =>
    cases f with
    | note n => exact ih htool hpending hnodup h hmem
    | rename r =>
      have hcons : Finding.renames (.rename r :: found) = r :: Finding.renames found := rfl
      rw [hcons]
      simp only [record] at h
      by_cases hfree : ∀ x ∈ before, x.line ≠ r.line
      · -- the rename is recorded, and the lines are still different
        have hadd : ledger.add r = .ok (ledger.push r) :=
          Ledger.add_eq_ok_iff.2 ⟨fun _ x hx => hfree x ((hmem x).1 hx), rfl⟩
        rw [hadd] at h
        have hmore : ((before ++ [r]).map (·.line)).Nodup := by
          rw [List.map_append, List.nodup_append]
          refine ⟨hnodup, by simp, ?_⟩
          rintro _ hx _ hy rfl
          obtain ⟨x, hx, hline⟩ := List.mem_map.1 hx
          exact hfree x hx (hline.trans (by simpa using hy))
        rw [← List.singleton_append, ← List.append_assoc]
        refine @ih (ledger.push r) (before ++ [r]) htool ?_ hmore h fun x => ?_
        · rw [Ledger.pending_push, hpending, Rename.sortByLine_append]
        · rw [Ledger.mem_pending_push, hmem, List.mem_append, List.mem_singleton, or_comm]
      · obtain ⟨x, hx, hline⟩ : ∃ x ∈ before, x.line = r.line := by simpa using hfree
        have hsingle : (ledger.pending.map (·.line)).Nodup := by
          rw [hpending, ((Rename.perm_sortByLine before).map _).nodup_iff]
          exact hnodup
        rw [Ledger.add_of_occupied htool hsingle ((hmem x).2 hx) hline] at h
        exact ⟨x, r, firstCollision_of_taken hnodup hx hline, (Option.some.inj h).symm⟩

/-- **The analysis refuses files with two definitions on a line**, and no others.  The refusal names
the first collision.  When nothing is refused, the ledger holds all renames found, sorted by line;
definitions have a line each. -/
theorem run_refuses_collisions (path : Bytes) (tool : Tool) (mode : Mode) (nodes : List Node) :
    let found := Finding.renames (findings { path, tool, mode } nodes)
    let outcome := run path tool mode nodes
    (outcome.error.isSome = true ↔ tool = .definitions ∧ ¬ (found.map (·.line)).Nodup) ∧
      (∀ e, outcome.error = some e → ∃ first second, Rename.FirstCollision found first second ∧
        e = ⟨path, second.line, first.name, second.name⟩) ∧
      (outcome.error = none → outcome.ledger.pending = Rename.sortByLine found ∧
        (tool = .definitions → (outcome.ledger.pending.map (·.line)).Nodup)) := by
  intro found outcome
  have hnone : outcome.error = none ↔ (tool = .definitions → (found.map (·.line)).Nodup) := by
    refine (error_eq_none_iff (.start path tool) _).trans ?_
    simp only [Ledger.pending_start, List.not_mem_nil, false_imp_iff, implies_true, true_and, List.Nodup,
      List.pairwise_map]
    rfl
  have hpending : outcome.error = none → outcome.ledger.pending = Rename.sortByLine found :=
    pending_run
  refine ⟨?_, fun e he => ?_, fun h => ⟨hpending h, fun htool => ?_⟩⟩
  · rw [← not_iff_not, Bool.not_eq_true, Option.isSome_eq_false_iff, Option.isNone_iff_eq_none,
      hnone, not_and, not_not]
  · cases tool with
    | calls =>
      have hno : outcome.error = none := hnone.2 nofun
      rw [hno] at he
      exact nomatch he
    | definitions =>
      exact @firstCollision_of_record (.start path .definitions) [] _ _ rfl
        List.mergeSort_nil.symm .nil he
  · rw [hpending h, ((Rename.perm_sortByLine found).map _).nodup_iff]
    exact hnone.1 h htool

/-- The functions of `fn get_a(); fn get_b();` collide. -/
example : (run "src/lib.rs" .definitions .allGetFunctions (Outline.read
      [.ident "fn" ⟨1, 0⟩, .ident "get_a" ⟨1, 3⟩, .group .paren [] ⟨1, 8⟩,
        .punct (byte ';') false ⟨1, 10⟩, .ident "fn" ⟨1, 12⟩, .ident "get_b" ⟨1, 15⟩,
        .group .paren [] ⟨1, 20⟩, .punct (byte ';') false ⟨1, 22⟩])).error =
    some ⟨"src/lib.rs", 1, "get_a", "get_b"⟩ := by decide +kernel

end Analysis

end GetterRename
