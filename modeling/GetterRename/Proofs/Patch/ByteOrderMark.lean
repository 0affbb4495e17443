import GetterRename.Proofs.Getter.Path
import GetterRename.Proofs.Source.FileHead

/-!
# Byte order marks

Behind a byte order mark a file is read as it would be without one: places count from behind the
mark.  The lines that are patched have the mark in front of their first one, where the places of
renames do not fit then.  On all other lines the mark makes no difference, and it is kept.

* `Event.ofSource_marked`, `Outline.ofSource_marked` — reading behind a mark;
* `Patch.lines_marked`, `Patch.apply_marked` — patching behind a mark;
* `Run.rewrite?_marked` — the new text of a file with a mark.
-/

namespace GetterRename

open Event (byteOrderMark)

/-! ### Reading -/

variable {src : Bytes}

theorem dropHead_marked (h : Bytes.startsWith src byteOrderMark = false) :
    Bytes.dropHead byteOrderMark (byteOrderMark ++ src) = Bytes.dropHead byteOrderMark src := by
  have hno : ¬ byteOrderMark <+: src := fun hstart =>
    Bool.eq_false_iff.1 h (List.isPrefixOf_iff_prefix.2 hstart)
  rw [Bytes.dropHead_append, Bytes.dropHead_eq_self hno]

/-- **Reading behind a mark.** -/
theorem Event.ofSource_marked (h : Bytes.startsWith src byteOrderMark = false) :
    ofSource (byteOrderMark ++ src) = ofSource src := by
  rw [ofSource, ofSource, dropHead_marked h]

namespace Token

theorem lex_marked (h : Bytes.startsWith src byteOrderMark = false) :
    lex (byteOrderMark ++ src) = lex src := by
  rw [lex, lex, Event.ofSource_marked h]

theorem body_marked (h : Bytes.startsWith src byteOrderMark = false) :
    body (byteOrderMark ++ src) = body src := by
  rw [body, body, dropHead_marked h]

theorem start_marked (h : Bytes.startsWith src byteOrderMark = false) :
    start (byteOrderMark ++ src) = start src := by
  rw [start, start, dropHead_marked h]

theorem no_second_mark {toks : List Token} (h : lex (byteOrderMark ++ src) = .ok toks) :
    Bytes.startsWith src byteOrderMark = false := by
  by_contra hstart
  rw [Bool.not_eq_false] at hstart
  obtain ⟨es, hreads, -⟩ := lex_eq_ok_iff.1 h
  rcases Event.shebang_eq src with ⟨hzero, -⟩ | ⟨a, b, heq, -⟩
  · rw [body, Bytes.dropHead_append, hzero, List.drop_zero] at hreads
    exact absurd hstart (by simp [hreads.no_byteOrderMark])
  · rw [heq] at hstart
    cases hstart

end Token

theorem Outline.ofSource_marked (h : Bytes.startsWith src byteOrderMark = false) :
    ofSource (byteOrderMark ++ src) = ofSource src := by
  rw [ofSource, ofSource, Token.lex_marked h]

/-! ### Patching -/

namespace Patch

theorem lines_marked {first : Bytes} {rest : List Bytes} (h : lines src = first :: rest) :
    lines (byteOrderMark ++ src) = (byteOrderMark ++ first) :: rest := by
  have hsplit : ∀ {part : Bytes} {parts : List Bytes},
      Bytes.splitOn (byte '\n') src = part :: parts →
      Bytes.splitOn (byte '\n') (byteOrderMark ++ src) = (byteOrderMark ++ part) :: parts := by
    intro part parts hparts
    have hnl : ∀ b ∈ byteOrderMark, b ≠ byte '\n' := by decide +kernel
    simp only [byteOrderMark, List.forall_mem_cons] at hnl
    simp only [byteOrderMark, List.cons_append, List.nil_append, Bytes.splitOn, hparts,
      if_neg hnl.1, if_neg hnl.2.1, if_neg hnl.2.2.1]
  obtain ⟨part, parts, hparts⟩ := List.exists_cons_of_ne_nil (Bytes.splitOn_ne_nil (byte '\n') src)
  simp only [lines, hparts, hsplit hparts] at h ⊢
  cases parts with
  | nil =>
    cases part with
    | nil => cases h
    | cons b part =>
      obtain ⟨rfl, rfl⟩ := List.cons.inj h
      rfl
  | cons next parts =>
    simp only [List.getLast?_cons_cons, List.dropLast_cons_cons] at h ⊢
    split at h
    · rename_i hempty
      obtain ⟨rfl, rfl⟩ := List.cons.inj h
      rw [if_pos hempty]
    · rename_i hempty
      obtain ⟨rfl, rfl⟩ := List.cons.inj h
      rw [if_neg hempty]

theorem changes_marked {tool : Tool} {pending : List Rename} {texts : List Bytes} {text : Bytes}
    (h : ∀ r ∈ pending, r.line ≠ 1) :
    changes tool 1 pending (text :: texts) = ⟨text, text, [], []⟩ :: changes tool 2 pending texts := by
  have hnone : Rename.onLine (1 : Nat) pending = [] := by
    refine List.filter_eq_nil_iff.2 fun r hr => ?_
    simpa using h r hr
  rw [changes_cons, hnone, Change.ofLine_nil]

/-- **Patching behind a mark.**  Where no rename is on the first line, the mark is kept and makes no
other difference. -/
theorem apply_marked {ledger : Ledger} (h : ∀ r ∈ ledger.pending, r.line ≠ 1)
    (docAlias : DocAlias) :
    apply (byteOrderMark ++ src) ledger docAlias =
      { apply src ledger docAlias with
        output := (apply src ledger docAlias).output.map (byteOrderMark ++ ·) } := by
  rw [apply_eq, apply_eq]
  cases hlines : lines src with
  | nil =>
    obtain rfl : src = [] := by
      obtain ⟨tail, -, htail⟩ := (isLines_lines src).exists_tail
      rw [hlines, List.flatMap_nil] at htail
      exact (List.append_eq_nil_iff.1 htail.symm).1
    have hmark : lines (byteOrderMark ++ []) = [byteOrderMark] := by decide +kernel
    have htaken : taken ledger 1 1 = ledger := congrArg Prod.snd (Ledger.take_of_free h)
    have hleft : ledger.pending.filter (outside 1 1) = ledger.pending.filter (outside 1 0) := by
      rw [← pending_taken, htaken, filter_outside_zero]
    rw [hmark, changes_marked h]
    simp only [changes, List.mapIdx_nil, List.length_cons, List.length_nil, Nat.zero_add, hleft,
      htaken]
    rfl
  | cons first rest =>
    rw [lines_marked hlines, changes_marked h, changes_marked h]
    simp only [List.length_cons, List.flatMap_cons, List.nil_append, Change.records, List.map_nil]
    split
    · rfl
    · simp only [Option.map_some, Change.text, Change.attributes_of_applied, List.nil_append,
        List.append_assoc]

/-- On the first line the places do not fit, and the name is searched for: here it is found in the
literal in front of the call. -/
example : (apply (byteOrderMark ++ "(\".get_x\", a.get_x());\n")
    ((Ledger.start "src/lib.rs" .calls).push
      ⟨"get_x", ⟨"x", .maybe, .regular⟩, 1, 12, .file, true, false⟩)
    .discard).output = some (byteOrderMark ++ "(\".x\", a.get_x());\n") := by decide +kernel

end Patch

/-! ### Fixing -/

namespace Run

/-- **A byte order mark and the fix.**  Where no rename is on the first line, a file with a mark can
be worked on when the file without it can, and the new text is the mark and the new text of that
file, with the same records. -/
theorem rewrite?_marked (hmark : Bytes.startsWith src byteOrderMark = false) (tool : Tool)
    (mode : Mode) (docAlias : DocAlias)
    (hline : ∀ nodes, Outline.ofSource src = .ok nodes →
      ∀ r ∈ (Analysis.run [] tool mode nodes).ledger.pending, r.line ≠ 1) :
    isFixable tool mode (byteOrderMark ++ src) = isFixable tool mode src ∧
      rewrite? tool mode docAlias (byteOrderMark ++ src) =
        (rewrite? tool mode docAlias src).map fun r => (byteOrderMark ++ r.1, r.2) := by
  unfold isFixable rewrite?
  rw [Outline.ofSource_marked hmark]
  refine ⟨rfl, ?_⟩
  cases hsource : Outline.ofSource src with
  | error e => rfl
  | ok nodes =>
    simp only [Patch.apply_marked (hline nodes hsource)]
    split
    · simp only [Option.map_map]
      rfl
    · rfl

end Run

end GetterRename
