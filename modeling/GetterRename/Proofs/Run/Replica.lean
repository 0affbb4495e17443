import GetterRename.Proofs.File.Eligible
import GetterRename.Run.Fix

/-!
# Copies of sources

A run with an output directory keeps the new text of a source at the way from the input directory to
the source, put behind the output directory.  The search joins names onto the input path as it is
given, while the way and the place of the copy are read off normal forms; both come to the names of
the source below the input directory, however its path is written and wherever it stands.

* `Run.target_names` — the place of a copy, from the names of its source;
* `Run.IsReplica` — a source and its copy stand at the same names;
* `Run.listed_replicated` — the copies of the sources that a search comes by.
-/

namespace GetterRename.Run

open GetterRename.Path (isName)
open GetterRename.Path.Clean (ofPath)
open Sources (listed find)

variable {args : Args} {top : Entry} {path : Bytes} {names : List Bytes}

/-! ### One copy -/

theorem target_names (houtput : args.output ≠ []) (hne : names ≠ [])
    (hnames : ∀ name ∈ names, isName name = true) (path : Bytes) :
    target args path (Bytes.join "/" names) = Path.join (args.output :: names) := by
  rw [target, if_neg (by simpa using houtput), Path.join_text hne hnames]

/-- The source at `path` is the file at `names` below the directory `top`, the way to it is the text
of these names, and its copy stands at the same names below the output directory. -/
structure IsReplica (args : Args) (top : Entry) (path : Bytes) (names : List Bytes) : Prop where
  file : ∃ access content, top.get? names = some (.file access content)
  ne_nil : names ≠ []
  /-- No name is a way up. -/
  each : ∀ name ∈ names, isName name = true
  relative : Path.relative? args.path path = some (Bytes.join "/" names)
  copy : target args path (Bytes.join "/" names) =
    Path.Clean.render ⟨(ofPath args.output).rooted, (ofPath args.output).parts ++ names⟩

theorem isReplica_join (htop : top.isWellNamed = true) (hpath : args.path ≠ [])
    (houtput : args.output ≠ []) (hne : names ≠ [])
    (hfile : ∃ access content, top.get? names = some (.file access content)) :
    IsReplica args top (Path.join (args.path :: names)) names := by
  obtain ⟨access, content, hget⟩ := hfile
  have hnames := Entry.isName_of_get? htop hget
  refine ⟨⟨access, content, hget⟩, hne, hnames, ?_, ?_⟩
  · obtain ⟨above, name, rfl⟩ := (List.eq_nil_or_concat names).resolve_left hne
    rw [List.concat_eq_append] at *
    exact Sources.relative?_below (Path.below_join_names hpath hne hnames)
  · have hbelow := Path.below_join_names houtput hne hnames
    rw [target_names houtput hne hnames, ← hbelow.names]
    exact hbelow.clean.symm

/-! ### All copies -/

/-- **The copies of the sources.** Whatever directory stands at the input path and however the path
is written, the sources that the search comes by are copied to their names below the output
directory, and different sources to different places. -/
theorem listed_replicated [Globs] (htop : top.isWellNamed = true) (hpath : args.path ≠ [])
    (houtput : args.output ≠ []) :
    (∀ t sources logs, t.entry args.path = .ok top → top.isDir = true →
      find t args.path args.exclude = .ok (sources, logs) →
        sources = listed top args.path args.exclude) ∧
    (∀ path ∈ listed top args.path args.exclude, ∃ names, IsReplica args top path names) ∧
    ∀ path ∈ listed top args.path args.exclude, ∀ other ∈ listed top args.path args.exclude,
      ∀ relative otherRelative, Path.relative? args.path path = some relative →
        Path.relative? args.path other = some otherRelative →
        target args path relative = target args other otherRelative → path = other := by
  have hreplica : ∀ path ∈ listed top args.path args.exclude, ∃ names,
      IsReplica args top path names ∧ path = Path.join (args.path :: names) := by
    intro path h
    obtain ⟨names, heligible, rfl⟩ := (Sources.mem_listed_iff htop hpath).1 h
    exact ⟨names, isReplica_join htop hpath houtput heligible.ne_nil heligible.file, rfl⟩
  refine ⟨?_, fun path h => (hreplica path h).imp fun _ h => h.1, ?_⟩
  · intro t sources logs hentry hdir hfind
    exact (Sources.walk_of_find hentry hdir hfind).2
  · intro path h other hother relative otherRelative hrelative hotherRelative heq
    obtain ⟨names, hnames, rfl⟩ := hreplica path h
    obtain ⟨names', hnames', rfl⟩ := hreplica other hother
    obtain rfl := Option.some.inj (hrelative.symm.trans hnames.relative)
    obtain rfl := Option.some.inj (hotherRelative.symm.trans hnames'.relative)
    rw [target_names houtput hnames.ne_nil hnames.each,
      target_names houtput hnames'.ne_nil hnames'.each] at heq
    rw [Path.join_names_inj houtput hnames.ne_nil hnames.each hnames'.ne_nil hnames'.each heq]

/-- A directory outside of the working directory, with further slashes and dots in its path. -/
theorem listed_replicated_crate :
    let args : Args :=
      { path := "../x/./..//w/", output := "./out//", exclude := ["src/gen"], tool := .calls,
        mode := .allGetFunctions, docAlias := .generate }
    let path := Bytes.ofString "../w/src/lib.rs"
    path ∈ @listed Sources.plainGlobs Sources.crate args.path args.exclude ∧
      ∃ names, IsReplica args Sources.crate path names ∧ Bytes.join "/" names = "src/lib.rs" ∧
        target args path "src/lib.rs" = "out/src/lib.rs" := by
  intro args path
  let _ : Globs := Sources.plainGlobs
  have htop : Sources.crate.isWellNamed = true := by decide
  have hpath : args.path ≠ [] := by decide
  have hlisted : path ∈ listed Sources.crate args.path args.exclude :=
    (Sources.mem_listed_iff htop hpath).2 ⟨_, Sources.eligible_lib, by decide⟩
  obtain ⟨-, hreplica, -⟩ := listed_replicated htop hpath (by decide)
  obtain ⟨names, h⟩ := hreplica path hlisted
  have hrelative : Path.relative? args.path path = some "src/lib.rs" := by decide
  exact ⟨hlisted, names, h, Option.some.inj (h.relative.symm.trans hrelative), by decide⟩

end GetterRename.Run
