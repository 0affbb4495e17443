import GetterRename.Proofs.Patch.Change

/-!
# The account of a ledger

A ledger is used up line by line.  The renames of a line are recorded or reported as lost, and those
of the lines that do not exist stay in the ledger and are reported at the end.  So every rename that
was pending is accounted for once, and the records are in the order of the sorted ledger.

* `Patch.perm_changes` — what is applied, what is lost and what is outside of the lines;
* `Patch.sublist_applied` — the renames applied, in the order of the sorted ledger;
* `Patch.Account`, `Patch.exists_account` — what becomes of the renames of a ledger.
-/

namespace GetterRename.Patch

open Rename

variable {tool : Tool} {k : Nat} {pending : List Rename} {texts : List Bytes}

/-! ### The renames of the lines -/

/-- Every rename is applied or lost on one of the lines, or it is outside of them. -/
theorem perm_changes (tool : Tool) (k : Nat) (pending : List Rename) (texts : List Bytes) :
    ((changes tool k pending texts).flatMap (·.applied) ++
      (changes tool k pending texts).flatMap (·.lost) ++
        pending.filter (outside k texts.length)).Perm pending := by
  induction texts generalizing k pending with
  | nil =>
    rw [List.length_nil, filter_outside_zero]
    exact .refl _
  | cons text texts ih =>
    have hfirst := Change.perm_applied_lost tool text (onLine k pending)
    have hrest := ih (k + 1) (pending.filter (·.line != (k : Int)))
    rw [changes_filter_ne, filter_outside_succ] at hrest
    have hsplit : (onLine k pending ++ pending.filter (·.line != (k : Int))).Perm pending :=
      List.filter_append_perm (fun r : Rename => r.line == (k : Int)) pending
    rw [List.perm_iff_count] at hfirst hrest hsplit ⊢
    intro r
    have h₁ := hfirst r
    have h₂ := hrest r
    have h₃ := hsplit r
    simp only [changes_cons, List.flatMap_cons, List.count_append, List.length_cons] at h₁ h₂ h₃ ⊢
    omega

theorem le_line_of_mem_applied {r : Rename}
    (h : r ∈ (changes tool k pending texts).flatMap (·.applied)) : (k : Int) ≤ r.line := by
  obtain ⟨c, hc, hr⟩ := List.mem_flatMap.1 h
  obtain ⟨i, hi⟩ := List.mem_iff_getElem?.1 hc
  obtain ⟨text, -, rfl⟩ := getElem?_changes hi
  have hline := line_of_mem_onLine ((Change.applied_sublist ..).subset hr)
  omega

theorem inLineOrder_applied (tool : Tool) (k : Nat) (pending : List Rename) (texts : List Bytes) :
    InLineOrder ((changes tool k pending texts).flatMap (·.applied)) := by
  induction texts generalizing k with
  | nil => exact .nil
  | cons text texts ih =>
    have hfirst : ∀ r ∈ (Change.ofLine tool text (onLine k pending)).applied, r.line = k :=
      fun r hr => line_of_mem_onLine ((Change.applied_sublist ..).subset hr)
    rw [changes_cons, List.flatMap_cons]
    refine List.pairwise_append.2 ⟨?_, ih (k + 1), fun a ha b hb => ?_⟩
    · refine List.pairwise_of_forall_mem_list fun a ha b hb => ?_
      exact Int.le_of_eq ((hfirst a ha).trans (hfirst b hb).symm)
    · have := hfirst a ha
      have := le_line_of_mem_applied hb
      omega

theorem onLine_applied_sublist (tool : Tool) (k : Nat) (pending : List Rename)
    (texts : List Bytes) (j : Int) :
    (onLine j ((changes tool k pending texts).flatMap (·.applied))).Sublist (onLine j pending) := by
  induction texts generalizing k with
  | nil => exact List.nil_sublist _
  | cons text texts ih =>
    have hsub := Change.applied_sublist tool text (onLine k pending)
    rw [changes_cons, List.flatMap_cons, onLine_append]
    by_cases hj : j = k
    · -- the later lines have nothing on this one
      have hnone : onLine j ((changes tool (k + 1) pending texts).flatMap (·.applied)) = [] := by
        refine List.filter_eq_nil_iff.2 fun r hr => ?_
        have := le_line_of_mem_applied hr
        simp only [beq_iff_eq]
        omega
      rw [hnone, List.append_nil, hj]
      exact List.filter_sublist.trans hsub
    · have hnone : onLine j (Change.ofLine tool text (onLine k pending)).applied = [] := by
        refine List.filter_eq_nil_iff.2 fun r hr => ?_
        have := line_of_mem_onLine (hsub.subset hr)
        simp only [beq_iff_eq]
        omega
      rw [hnone, List.nil_append]
      exact ih (k + 1)

theorem sublist_applied (tool : Tool) (k : Nat) (pending : List Rename) (texts : List Bytes) :
    ((changes tool k pending texts).flatMap (·.applied)).Sublist (sortByLine pending) := by
  refine sublist_of_onLine (inLineOrder_applied ..) (inLineOrder_sortByLine pending) fun j => ?_
  rw [onLine_sortByLine]
  exact onLine_applied_sublist ..

/-! ### The account -/

/-- The account of applying a ledger to a text: the renames recorded, those reported as lost, and
those left. -/
structure Account (src : Bytes) (ledger : Ledger) (docAlias : DocAlias)
    (recorded lost : List Rename) : Prop where
  /-- Each pending rename is recorded, lost or left. -/
  once : (recorded ++ lost ++ (apply src ledger docAlias).ledger.pending).Perm ledger.pending
  /-- The records are by line, and on a line in the order of discovery. -/
  order : recorded.Sublist (sortByLine ledger.pending)
  records : (apply src ledger docAlias).records = recorded.map fun r =>
    { line := r.line, name := r.name, newName := r.newName.text,
      rule := Bytes.ofString r.newName.rule.label, scope := r.scope.display,
      docAlias := ledger.tool = .definitions && docAlias.mustGenerate && r.needsDocAlias }
  /-- What is left are the renames outside of the lines. -/
  left : (apply src ledger docAlias).ledger.pending = ledger.pending.filter fun r =>
    r.line < 1 || ((lines src).length : Int) < r.line
  path : (apply src ledger docAlias).ledger.path = ledger.path
  tool : (apply src ledger docAlias).ledger.tool = ledger.tool
  /-- Each rename lost and each one left is reported. -/
  logs : (apply src ledger docAlias).logs = lost.map (notLocated ledger.path) ++
    (apply src ledger docAlias).ledger.pending.map (beyondEnd ledger.path)
  changed : (apply src ledger docAlias).output.isSome = true ↔ recorded ≠ []
  /-- In front of each line are the attributes of its renames that are recorded with an alias, one
  for each; there are no other attributes. -/
  aliases : ∀ out, (apply src ledger docAlias).output = some out →
    ∃ parts : List (List Rename × Bytes),
      parts.length = (lines src).length ∧ parts.flatMap (·.1) = recorded ∧
      (∀ (i : Nat) (part : List Rename × Bytes), parts[i]? = some part →
        ∀ r ∈ part.1, r.line = 1 + i) ∧
      (out = parts.flatMap fun (rs, text) =>
        (rs.filter fun r =>
          ledger.tool = .definitions && docAlias.mustGenerate && r.needsDocAlias).flatMap
            (aliasAttribute ·.name) ++ text ++ [byte '\n']) ∧
      (apply src ledger .discard).output =
        some (parts.flatMap fun (_, text) => text ++ [byte '\n'])

/-- **Every rename is accounted for**, whatever the text and the ledger. -/
theorem exists_account (src : Bytes) (ledger : Ledger) (docAlias : DocAlias) :
    IsLines src (lines src) ∧ ∃ recorded lost, Account src ledger docAlias recorded lost := by
  let cs := changes ledger.tool 1 ledger.pending (lines src)
  have hleft : ledger.pending.filter (outside 1 (lines src).length) =
      ledger.pending.filter fun r => r.line < 1 || ((lines src).length : Int) < r.line := by
    refine List.filter_congr fun r _ => Bool.eq_iff_iff.2 ?_
    simp only [outside, Bool.or_eq_true, decide_eq_true_eq]
    omega
  refine ⟨isLines_lines src, cs.flatMap (·.applied), cs.flatMap (·.lost), ?_⟩
  exact {
    once := by
      rw [apply_eq, pending_taken]
      exact perm_changes ..
    order := sublist_applied ..
    records := by
      rw [apply_eq]
      exact List.map_flatMap.symm
    left := by rw [apply_eq, pending_taken, ← hleft]
    path := by rw [apply_eq, path_taken]
    tool := by rw [apply_eq, tool_taken]
    logs := by rw [apply_eq, pending_taken]
    changed := by
      rw [apply_eq]
      by_cases hnone : cs.flatMap (·.applied) = [] <;> simp [cs, hnone]
    aliases := fun out hout => by
      obtain ⟨hsome, rfl⟩ := output_eq_some_iff.1 hout
      refine ⟨cs.map fun c => (c.applied, c.after), ?_, ?_, ?_, ?_, ?_⟩
      · rw [List.length_map, length_changes]
      · rw [List.flatMap_map]
      · intro i part hpart r hr
        obtain ⟨c, hc, rfl⟩ := Option.map_eq_some_iff.1 ((List.getElem?_map ..).symm.trans hpart)
        obtain ⟨text, -, rfl⟩ := getElem?_changes hc
        have hline := line_of_mem_onLine ((Change.applied_sublist ..).subset hr)
        omega
      · rw [List.flatMap_map]
        rfl
      · -- without attributes the lines are the same
        rw [output_eq_some_iff, List.flatMap_map]
        refine ⟨hsome, ?_⟩
        simp only [Change.text, Change.attributes_of_noAlias (noAlias_of_discard _),
          List.nil_append]
        rfl }

/-- Three calls on two lines of a text that has one, where only the first can be found. -/
example :
    let call (name : Bytes) (line : Int) : Rename :=
      ⟨name, ⟨"x", .maybe, .regular⟩, line, -1, .file, false, false⟩
    let found := [call "get_x" 1, call "get_y" 1, call "get_x" 2]
    let p := apply "get_x();\n" (found.foldl Ledger.push (.start "src/lib.rs" .calls)) .discard
    p.output = some "x();\n" ∧ p.records.map (·.name) = ["get_x"] ∧
      p.logs = [notLocated "src/lib.rs" (call "get_y" 1), beyondEnd "src/lib.rs" (call "get_x" 2)] ∧
      p.ledger.pending = [call "get_x" 2] := by
  decide +kernel

end GetterRename.Patch
