import GetterRename.Proofs.File.Tree
import Mathlib.Data.List.Basic

/-!
# Writing into a file tree

A path that can be written leads into a directory that is there, so one entry is put into it and
nothing else changes.  The directories made on the way take no file away.  So of all files the one
that is written is the only one that may change.

* `FileTree.fileAt?` — the content of the file at a list of names;
* `FileTree.fileAt?_create` — an entry is put where nothing stands;
* `FileTree.fileAt?_save` — a file is saved, and no other one changes.
-/

namespace GetterRename

def Entry.content? : Entry → Option Bytes
  | file _ content => some content
  | _ => none

namespace FileTree

variable {t t' : FileTree} {names stack : List Bytes} {path content : Bytes} {access : Access}

/-- The content of the file at a list of names; nothing where no file stands. -/
def fileAt? (t : FileTree) (names : List Bytes) : Option Bytes :=
  (t.node? names).bind Entry.content?

theorem fileAt?_of_entry (h : t.entry path = .ok (.file access content)) :
    t.fileAt? (t.place path) = some content := by
  rw [fileAt?, node?_of_entry h]
  rfl

/-- **An entry with nothing below it** is put where nothing stands, and no file changes but there. -/
theorem fileAt?_create {new : Entry} (hleaf : ∀ x xs, new.get? (x :: xs) = none)
    (hfree : t.root.get? names = none) (h : t.create names new = .ok t') (others : List Bytes) :
    t'.here = t.here ∧
      t'.fileAt? others = if others = names then new.bare.content? else t.fileAt? others := by
  have hplace : ¬ t.IsDirAt names := by
    rintro ⟨e, he, -⟩
    simp [hfree] at he
  have hne : names ≠ [] := by
    rintro rfl
    simp [Entry.get?] at hfree
  unfold create at h
  split at h
  · rename_i access hparent
    split at h
    · obtain rfl := Except.ok.inj h
      have habove : t.IsDirAt names.dropLast := isDirAt_iff.2 ⟨access, hparent⟩
      rw [← List.dropLast_append_getLast hne] at hplace ⊢
      refine ⟨rfl, ?_⟩
      rw [fileAt?, node?_put hleaf (by simpa using habove) hplace]
      split <;> rfl
    · simp at h
  · simp at h

/-- **A file that is written** stands at the place of its path, and no other file changes. -/
theorem fileAt?_write (h : t.write path content access = .ok t') (others : List Bytes) :
    t'.here = t.here ∧
      t'.fileAt? others = if others = t.place path then some content else t.fileAt? others := by
  unfold write at h
  split at h
  · simp at h
  rename_i names hlocate
  split at h
  · rename_i access' old hget
    split at h
    · obtain rfl := Except.ok.inj h
      have hentry : t.entry path = .ok (.file access' old) := entry_eq_ok.2 ⟨names, hlocate, hget⟩
      obtain rfl := eq_place_of_locate hlocate
      refine ⟨rfl, ?_⟩
      rw [fileAt?, node?_replace hentry]
      split <;> rfl
    · simp at h
  · simp at h
  · simp at h
  · rename_i hfree
    cases hcreate : t.create names (.file access content) with
    | error cause => simp [hcreate, Except.mapError] at h
    | ok made =>
      obtain rfl : made = t' := by simpa [hcreate, Except.mapError] using h
      rw [← eq_place_of_locate hlocate]
      exact fileAt?_create (fun _ _ => rfl) hfree hcreate others

/-- **Making a directory** changes no file. -/
theorem fileAt?_mkdir (h : t.mkdir path = .ok t') (others : List Bytes) :
    t'.here = t.here ∧ t'.fileAt? others = t.fileAt? others := by
  unfold mkdir at h
  split at h
  · simp at h
  rename_i names hlocate
  split at h
  · simp at h
  rename_i hfree
  cases hcreate : t.create names .empty with
  | error cause => simp [hcreate, Except.mapError] at h
  | ok made =>
    obtain rfl : made = t' := by simpa [hcreate, Except.mapError] using h
    obtain ⟨hhere, hfile⟩ := fileAt?_create (fun _ _ => rfl) hfree hcreate others
    refine ⟨hhere, hfile.trans ?_⟩
    split
    · rename_i heq
      rw [heq, fileAt?, node?, hfree]
      rfl
    · rfl

theorem fileAt?_mkdirs {rooted : Bool} (h : t.mkdirs rooted stack = .ok t')
    (others : List Bytes) : t'.here = t.here ∧ t'.fileAt? others = t.fileAt? others := by
  induction stack generalizing t' with
  | nil =>
    unfold mkdirs at h
    simp only at h
    split at h
    · obtain rfl := Except.ok.inj h
      exact ⟨rfl, rfl⟩
    · simp at h
    · exact fileAt?_mkdir h others
  | cons name above ih =>
    unfold mkdirs at h
    simp only at h
    split at h
    · obtain rfl := Except.ok.inj h
      exact ⟨rfl, rfl⟩
    · simp at h
    · split at h
      · simp at h
      · rename_i made hmade
        obtain ⟨hhere, hfile⟩ := ih hmade
        obtain ⟨hhere', hfile'⟩ := fileAt?_mkdir h others
        exact ⟨hhere'.trans hhere, hfile'.trans hfile⟩

/-- **Saving a file** changes no other one. -/
theorem fileAt?_save (h : t.save path content access = .ok t') (others : List Bytes) :
    t'.here = t.here ∧
      t'.fileAt? others = if others = t.place path then some content else t.fileAt? others := by
  unfold save at h
  split at h
  · simp at h
  · rename_i made hmade
    have hwrite : made.write path content access = .ok t' := by
      cases hw : made.write path content access with
      | error e => simp [hw, Except.mapError] at h
      | ok written => simpa [hw, Except.mapError] using h
    obtain ⟨hhere, hfile⟩ := fileAt?_mkdirs hmade others
    obtain ⟨hhere', hfile'⟩ := fileAt?_write hwrite others
    have hplace : made.place path = t.place path := by simp only [place, start, hhere]
    exact ⟨hhere'.trans hhere, by rw [hfile', hplace, hfile]⟩

end FileTree

end GetterRename
