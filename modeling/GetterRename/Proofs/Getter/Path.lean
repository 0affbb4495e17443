import GetterRename.Proofs.Getter.Comparison
import GetterRename.Proofs.Patch.Change
import GetterRename.Run.Fix

/-!
# The path of a file

The path of a file stands in the notes and in the errors about it, and nowhere else.  So the renames
of a file, its new text and its records depend on its text, the tool, the mode and the alias policy
only.

* `Context.compares_at` — the renames of a file, whatever its path;
* `Analysis.run_at`, `Patch.apply_at` — the ledger of a file and what is made of it;
* `Run.rewrite?` — the new text of a file and its records;
* `Run.fixText_of_isFixable` — the work on a file at any path gives them.
-/

namespace GetterRename

/-- The same context for a file at another path. -/
def Context.at (ctx : Context) (path : Bytes) : Context := { ctx with path }

open Finding (renames)

variable (ctx : Context) (path : Bytes)

/-- The path of a file makes no difference to what is renamed in it. -/
theorem Context.compares_at (scope : Scope) :
    Context.Compares (· = ·) (ctx.at path) ctx scope where
  tool := rfl
  view := rfl
  nil := rfl
  append h h' := congrArg₂ (· ++ ·) h h'
  judge view cand objection := by
    unfold judge
    split
    · rfl
    · rename_i newName _
      have hshape : ({ ctx.at path with view } : Context).mustCheckShape newName =
          ({ ctx with view } : Context).mustCheckShape newName := rfl
      rw [hshape]
      cases ({ ctx with view } : Context).mustCheckShape newName <;> cases objection <;> rfl

/-! ### Files -/

namespace Analysis

theorem record_renames (l : Ledger) (found : List Finding) :
    (record l found).1 = (record l ((renames found).map .rename)).1 ∧
      (record l found).2.2 = (record l ((renames found).map .rename)).2.2 := by
  induction found generalizing l with
  | nil => exact ⟨rfl, rfl⟩
  | cons finding rest ih =>
    cases finding with
    | note n => exact ih l
    | rename r =>
      simp only [record, Finding.renames, List.filterMap_cons, List.map_cons]
      cases l.add r with
      | ok l' => exact ih l'
      | error e => exact ⟨(ih l).1, rfl⟩

end Analysis

/-! ### Ledgers -/

def Ledger.at (l : Ledger) (path : Bytes) : Ledger := { l with path }

theorem Ledger.add_at (l : Ledger) (r : Rename) :
    (∃ l', l.add r = .ok l' ∧ (l.at path).add r = .ok (l'.at path)) ∨
      ∃ e e', l.add r = .error e ∧ (l.at path).add r = .error e' := by
  have hoccupant : (l.at path).occupant? r.line = l.occupant? r.line := rfl
  have htool : (l.at path).tool = l.tool := rfl
  simp only [Ledger.add, hoccupant, htool]
  split
  · exact .inr ⟨_, _, rfl, rfl⟩
  · exact .inl ⟨_, rfl, rfl⟩

namespace Analysis

theorem record_at (l : Ledger) (rs : List Rename) :
    (record (l.at path) (rs.map .rename)).1 = (record l (rs.map .rename)).1.at path ∧
      (record (l.at path) (rs.map .rename)).2.2.isSome =
        (record l (rs.map .rename)).2.2.isSome := by
  induction rs generalizing l with
  | nil => exact ⟨rfl, rfl⟩
  | cons r rs ih =>
    simp only [List.map_cons, record]
    rcases l.add_at path r with ⟨l', hadd, hadd'⟩ | ⟨e, e', hadd, hadd'⟩
    · simp only [hadd, hadd']
      exact ih l'
    · simp only [hadd, hadd']
      exact ⟨(ih l).1, rfl⟩

/-- **The path of a file** makes no difference to its ledger, nor to whether there is an error. -/
theorem run_at (tool : Tool) (mode : Mode) (nodes : List Node) :
    (run path tool mode nodes).ledger = (run [] tool mode nodes).ledger.at path ∧
      (run path tool mode nodes).error.isSome = (run [] tool mode nodes).error.isSome := by
  let ctx : Context := { path := [], tool, mode }
  have hfound : renames (findings (ctx.at path) nodes) = renames (findings ctx nodes) :=
    renames_findings (ctx.compares_at path) nodes
  obtain ⟨hledger, herror⟩ := record_renames (.start path tool) (findings (ctx.at path) nodes)
  obtain ⟨hledger', herror'⟩ := record_renames (.start [] tool) (findings ctx nodes)
  obtain ⟨hat, hat'⟩ := record_at path (.start [] tool) (renames (findings ctx nodes))
  rw [hfound] at hledger herror
  constructor
  · show (record (.start path tool) (findings (ctx.at path) nodes)).1 = _
    rw [hledger]
    exact hat.trans (congrArg (Ledger.at · path) hledger'.symm)
  · show (record (.start path tool) (findings (ctx.at path) nodes)).2.2.isSome = _
    rw [herror]
    exact hat'.trans (congrArg Option.isSome herror'.symm)

end Analysis

namespace Patch

/-- **The path of a ledger** makes no difference to the text and the records. -/
theorem apply_at (src : Bytes) (l : Ledger) (docAlias : DocAlias) :
    (apply src (l.at path) docAlias).output = (apply src l docAlias).output ∧
      (apply src (l.at path) docAlias).records = (apply src l docAlias).records := by
  rw [apply_eq, apply_eq]
  exact ⟨rfl, rfl⟩

end Patch

/-! ### Texts -/

namespace Run

/-- Whether a text can be worked on: it has an outline, and no two definitions share a line. -/
def isFixable (tool : Tool) (mode : Mode) (src : Bytes) : Bool :=
  match Outline.ofSource src with
  | .error _ => false
  | .ok nodes => (Analysis.run [] tool mode nodes).error.isNone

/-- The new text of a file and the records of its renames, from its text alone; nothing where the
text cannot be worked on or nothing is renamed. -/
def rewrite? (tool : Tool) (mode : Mode) (docAlias : DocAlias) (src : Bytes) :
    Option (Bytes × List Record) :=
  match Outline.ofSource src with
  | .error _ => none
  | .ok nodes =>
    let analysis := Analysis.run [] tool mode nodes
    let patch := Patch.apply src analysis.ledger docAlias
    if analysis.error.isNone then patch.output.map fun text => (text, patch.records) else none

/-- **The work on a text** gives its new text wherever the file is. -/
theorem fixText_of_isFixable {tool : Tool} {mode : Mode} {src : Bytes}
    (h : isFixable tool mode src = true) (docAlias : DocAlias) :
    (fixText tool mode docAlias path src).2 = .ok (rewrite? tool mode docAlias src) := by
  unfold isFixable at h
  unfold fixText rewrite?
  cases hsource : Outline.ofSource src with
  | error e => simp [hsource] at h
  | ok nodes =>
    rw [hsource] at h
    obtain ⟨hledger, herror⟩ := Analysis.run_at path tool mode nodes
    have hnone : (Analysis.run [] tool mode nodes).error = none := Option.isNone_iff_eq_none.1 h
    have hnone' : (Analysis.run path tool mode nodes).error = none := by
      rw [hnone] at herror
      exact Option.not_isSome_iff_eq_none.1 (by simp [herror])
    obtain ⟨houtput, hrecords⟩ :=
      Patch.apply_at path src (Analysis.run [] tool mode nodes).ledger docAlias
    simp only [hnone, hnone', hledger, houtput, hrecords, Option.isNone_none, if_true]

theorem fixText_of_not_isFixable {tool : Tool} {mode : Mode} {src : Bytes}
    (h : isFixable tool mode src = false) (docAlias : DocAlias) :
    (∃ e, (fixText tool mode docAlias path src).2 = .error e) ∧
      rewrite? tool mode docAlias src = none := by
  unfold isFixable at h
  unfold fixText rewrite?
  cases hsource : Outline.ofSource src with
  | error e => exact ⟨⟨_, rfl⟩, rfl⟩
  | ok nodes =>
    rw [hsource] at h
    obtain ⟨-, herror⟩ := Analysis.run_at path tool mode nodes
    obtain ⟨e, he⟩ := Option.isSome_iff_exists.1 (herror.trans (Option.isNone_eq_false_iff.1 h))
    simp only [he, h]
    exact ⟨⟨_, rfl⟩, rfl⟩

end Run

end GetterRename
