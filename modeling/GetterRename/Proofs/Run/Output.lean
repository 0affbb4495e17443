import GetterRename.Proofs.File.Writing
import GetterRename.Proofs.Run.Schedule

/-!
# Runs with an output directory

A task writes at the place that its source has below the output directory, and nowhere else.  So
whatever the order of steps a run changes no file but at these places, and all of them are below the
output directory.  A source that stands there itself may be such a place: it is not kept then.

* `Run.IsTarget` — the place of the new text of a source;
* `Run.Pool.Spares` — what the steps of a run keep: the files that are no places of sources;
* `Run.Pool.spares_step`, `Run.Pool.spares_run` — a step keeps it, and so does a run;
* `Run.changed_below_output` — the files that a run changes;
* `Run.source_kept` — a source outside of the output directory.
-/

namespace GetterRename.Run

open GetterRename.Path.Clean (ofPath)

variable {args : Args} {base path : Bytes} {t : FileTree} {names : List Bytes}

/-- The new text of the source at `path` is kept at these names from the root. -/
def IsTarget (args : Args) (base : Bytes) (t : FileTree) (path : Bytes) (names : List Bytes) : Prop :=
  ∃ relative, Path.relative? base path = some relative ∧
    names = t.place (target args path relative)

theorem IsTarget.congr {t' : FileTree} (hhere : t'.here = t.here)
    (h : IsTarget args base t' path names) : IsTarget args base t path names := by
  obtain ⟨relative, hrelative, hnames⟩ := h
  refine ⟨relative, hrelative, hnames.trans ?_⟩
  simp only [FileTree.place, FileTree.start, hhere]

/-- Keeping the new text of a source changes no file but at its place. -/
theorem fileAt?_keep (args : Args) (base : Bytes) (t : FileTree) (path : Bytes) (d : Draft) :
    (keep args base t path d).1.here = t.here ∧ ∀ names, ¬ IsTarget args base t path names →
      (keep args base t path d).1.fileAt? names = t.fileAt? names := by
  unfold keep
  split
  · exact ⟨rfl, fun _ _ => rfl⟩
  rename_i relative hrelative
  split
  · exact ⟨rfl, fun _ _ => rfl⟩
  simp only
  split
  · exact ⟨rfl, fun _ _ => rfl⟩
  split
  · exact ⟨rfl, fun _ _ => rfl⟩
  · rename_i saved hsave
    refine ⟨(FileTree.fileAt?_save hsave []).1, fun names h => ?_⟩
    exact (FileTree.fileAt?_save hsave names).2.trans
      (if_neg fun heq => h ⟨relative, hrelative, heq⟩)

namespace Pool

/-- **What the steps of a run keep**, where `t` is the tree before the first of them: the working
directory, and the files that stand at no place of a source. -/
structure Spares (args : Args) (base : Bytes) (t : FileTree) (sources : List Bytes) (p : Pool) :
    Prop where
  paths : ∀ task ∈ p.tasks, task.path ∈ sources
  here : p.tree.here = t.here
  kept : ∀ names, (∀ path ∈ sources, ¬ IsTarget args base t path names) →
    p.tree.fileAt? names = t.fileAt? names

variable {sources : List Bytes} {p : Pool}

theorem spares_start (args : Args) (base : Bytes) (t : FileTree) (sources : List Bytes) :
    Spares args base t sources (start args t sources) where
  paths := by simp [start]
  here := rfl
  kept := fun _ _ => rfl

theorem Spares.mem_sources (h : Spares args base t sources p) {i : Nat} {stage : Stage}
    (hi : p.tasks[i]? = some ⟨path, stage⟩) : path ∈ sources :=
  h.paths ⟨path, stage⟩ (List.mem_of_getElem? hi)

theorem Spares.paths_move (h : Spares args base t sources p) {i : Nat} {stage stage' : Stage}
    (hi : p.tasks[i]? = some ⟨path, stage⟩) :
    ∀ task ∈ (p.move i path stage').tasks, task.path ∈ sources := by
  intro task hmem
  rcases List.mem_or_eq_of_mem_set hmem with hmem | rfl
  · exact h.paths task hmem
  · exact h.mem_sources hi

/-- **A step** keeps it. -/
theorem spares_step (h : Spares args base t sources p) (threads : Nat) (e : Event) :
    Spares args base t sources (p.step args base threads e) := by
  have hchange := change_step args base threads p e
  generalize p.step args base threads e = p' at hchange ⊢
  cases hchange with
  | stays => exact h
  | cancels => exact ⟨h.paths, h.here, h.kept⟩
  | begins hi => exact ⟨h.paths_move hi, h.here, h.kept⟩
  | admits hi => exact ⟨h.paths_move hi, h.here, h.kept⟩
  | refuses hi _ => exact ⟨h.paths_move hi, h.here, h.kept⟩
  | reads hi => exact ⟨h.paths_move hi, h.here, h.kept⟩
  | @writes i path d hi =>
    obtain ⟨hhere, hfile⟩ := fileAt?_keep args base p.tree path d
    refine ⟨h.paths_move hi, hhere.trans h.here, fun names hnames => ?_⟩
    have htarget := hnames path (h.mem_sources hi)
    exact (hfile names fun heq => htarget (heq.congr h.here)).trans (h.kept names hnames)
  | @gathers i path outcome hi =>
    cases outcome <;> exact ⟨h.paths_move hi, h.here, h.kept⟩

/-- **A run** keeps it, whatever its schedule. -/
theorem spares_run (h : Spares args base t sources p) (threads : Nat) (schedule : List Event) :
    Spares args base t sources (p.run args base threads schedule) := by
  induction schedule generalizing p with
  | nil => exact h
  | cons e schedule ih => exact ih (spares_step h threads e)

end Pool

/-! ### Output directories -/

section Globs

variable [Globs]

/-- There is a way to each source with proper names only. -/
theorem exists_names_of_mem {p : Plan} (ht : t.isWellNamed = true) (h : plan t args = .ok p)
    (hpath : path ∈ p.sources) :
    ∃ more, (∀ name ∈ more, Path.isName name = true) ∧
      ofPath path = ⟨(ofPath p.base).rooted, (ofPath p.base).parts ++ more⟩ := by
  obtain ⟨-, top, hentry, ⟨hdir, hone, hbase⟩ | ⟨-, hbase, hbelow⟩⟩ := plan_spec ht h
  · rw [hone] at hpath
    obtain rfl := List.mem_singleton.1 hpath
    obtain ⟨place, hlocate, hget⟩ := FileTree.entry_eq_ok.1 hentry
    obtain ⟨above, -, -, hleaf⟩ := FileTree.locate_above hlocate
    obtain ⟨last, hlast, -, hnames⟩ := hleaf fun ⟨e, he, hisDir⟩ => by
      obtain rfl := Option.some.inj (he.symm.trans hget)
      simp [hdir] at hisDir
    exact ⟨[last], List.forall_mem_singleton.2 hlast, hbase ▸ hnames⟩
  · obtain ⟨names, hbelow⟩ := hbelow path hpath
    exact ⟨names, hbelow.each, hbase ▸ hbelow.names⟩

/-- The place of a source is below the output directory. -/
theorem prefix_of_isTarget {p : Plan} (ht : t.isWellNamed = true) (houtput : args.output ≠ [])
    (h : plan t args = .ok p) (hpath : path ∈ p.sources)
    (htarget : IsTarget args p.base t path names) : t.place args.output <+: names := by
  obtain ⟨more, hmore, hnames⟩ := exists_names_of_mem ht h hpath
  obtain ⟨relative, hrelative, rfl⟩ := htarget
  rw [Path.relative?_eq hnames] at hrelative
  obtain rfl := Option.some.inj hrelative
  rw [target, if_neg (by simpa using houtput),
    FileTree.place_below hmore (Path.ofPath_join houtput hmore)]
  exact List.prefix_append _ _

/-- **With an output directory** a run changes files below it only, and only where the new text of
one of its sources is kept. -/
theorem changed_below_output {threads : Nat} {schedule : List Event} {r : Result}
    (ht : t.isWellNamed = true) (houtput : args.output ≠ []) (hreport : args.report = [])
    (h : fixScheduled threads schedule t args = some r)
    (hchanged : r.tree.fileAt? names ≠ t.fileAt? names) :
    t.place args.output <+: names ∧ ∃ p path, plan t args = .ok p ∧ path ∈ p.sources ∧
      IsTarget args p.base t path names := by
  unfold fixScheduled at h
  cases hplan : plan t args with
  | error e =>
    simp only [hplan, Option.some.injEq] at h
    subst h
    exact absurd rfl hchanged
  | ok p =>
    simp only [hplan] at h
    split at h
    · obtain rfl := Option.some.inj h
      have hspares : Pool.Spares args p.base t p.sources (p.pool threads schedule t args) :=
        Pool.spares_run (Pool.spares_start args p.base t p.sources) threads schedule
      have htree : (p.conclude args (p.pool threads schedule t args).outcome).tree =
          (p.pool threads schedule t args).tree := by
        simp [Plan.conclude, saveReport, hreport, Pool.outcome]
      obtain ⟨path, hpath, htarget⟩ : ∃ path ∈ p.sources, IsTarget args p.base t path names := by
        by_contra hno
        rw [htree] at hchanged
        exact hchanged (hspares.kept names fun path hpath htarget => hno ⟨path, hpath, htarget⟩)
      exact ⟨prefix_of_isTarget ht houtput hplan hpath htarget, p, path, rfl, hpath, htarget⟩
    · exact nomatch h

/-- **A source that does not stand below the output directory** has its content behind a run. -/
theorem source_kept {threads : Nat} {schedule : List Event} {r : Result} {src : Bytes}
    (ht : t.isWellNamed = true) (houtput : args.output ≠ []) (hreport : args.report = [])
    (h : fixScheduled threads schedule t args = some r) (hread : t.read path = .ok src)
    (hapart : ¬ t.place args.output <+: t.place path) :
    r.tree.fileAt? (t.place path) = some src := by
  obtain ⟨access, -, hentry⟩ := FileTree.read_eq_ok.1 hread
  have hfile := FileTree.fileAt?_of_entry hentry
  by_contra hchanged
  rw [← hfile] at hchanged
  exact hapart (changed_below_output ht houtput hreport h hchanged).1

end Globs

/-- A source below the output directory is not kept: here the new text of `lib.rs` is written over
`src/lib.rs`. -/
example :
    let t : FileTree := ⟨.dir {} (.cons "lib.rs" (.file {} "m!(x.get_y());\n")
      (.cons "src" (.dir {} (.cons "lib.rs" (.file {} "m!();\n") .nil)) .nil)), []⟩
    let args : Args := ⟨".", "src", [], .calls, .allGetFunctions, .generate, false, [], false⟩
    (keep args "." t "lib.rs" ⟨"m!(x.get_y());\n", "m!(x.y());\n", []⟩).1.fileAt? ["src", "lib.rs"]
      = some (Bytes.ofString "m!(x.y());\n") := by
  decide +kernel

end GetterRename.Run
