import GetterRename.Proofs.File.Walk

/-!
# The eligible files

The search for sources leaves out directories while it walks and files when it comes by them, and
sorts what is left.  Seen from the result a file is a source because of its own name, its path
relative to the root, and the names and relative paths of the directories above it, each by itself;
the name of the root plays no part.  The search fails exactly where the file system refuses what it
comes by.

* `Sources.verdict_dir`, `Sources.verdict_file` — what becomes of an entry, from its names;
* `Sources.Eligible` — the files that count, said without a walk;
* `Sources.Admits` — nothing that the search comes by is refused, said without a walk;
* `Sources.mem_listed_iff` — the search comes by the files that count;
* `Sources.exists_entry_of_find` — what is found is there;
* `Sources.find_eligible` — when the search for sources succeeds, and what it returns.
-/

namespace GetterRename.Sources

open GetterRename.Path (isName Below under)
open Entry (isReached mem_tour_iff)

section Search

variable [Globs] {t : FileTree} {top : Entry} {root path : Bytes} {exclude names : List Bytes}

/-! ### Verdicts from names -/

section Verdict

variable {above : List Bytes} {name : Bytes}

omit [Globs] in
theorem relative?_below (h : Below root path (above ++ [name])) :
    Path.relative? root path = some (Bytes.join "/" (above ++ [name])) := by
  rw [Path.relative?_eq h.names]
  cases above <;> rfl

omit [Globs] in
theorem ne_root (h : Below root path (above ++ [name])) : path ≠ root := by
  rintro rfl
  have hparts := congrArg Path.Clean.parts h.names
  simp at hparts

/-- A directory below the root is entered unless its name or its relative path forbids it. -/
theorem verdict_dir (h : Below root path (above ++ [name])) :
    verdict root exclude path .dir = .enteredDir ↔
      name ∉ excludedDirs ∧ isExcluded exclude (Bytes.join "/" (above ++ [name])) = false := by
  obtain ⟨front, hpath, hfront⟩ := h.exists_front
  have hname := (Path.isName_iff.1 (h.each name (by simp))).2.2.2
  have hbase : Path.base path = name := by
    rw [hpath]
    exact Path.base_eq hname hfront
  simp only [verdict, if_neg (ne_root h), relative?_below h, hbase, Option.getD_some, if_true,
    List.contains_eq_mem, decide_eq_true_eq]
  split
  · simp_all
  split <;> simp_all

/-- A file below the root is a source if its name ends as one and its relative path is free. -/
theorem verdict_file (h : Below root path (above ++ [name])) :
    verdict root exclude path .file = .source ↔
      Bytes.endsWith name ".rs" = true ∧
        isExcluded exclude (Bytes.join "/" (above ++ [name])) = false := by
  obtain ⟨front, hpath, hfront⟩ := h.exists_front
  have hend : Bytes.endsWith path ".rs" = Bytes.endsWith name ".rs" := by
    rw [hpath]
    exact Path.endsWith_eq (by decide) hfront
  simp only [verdict, if_neg (ne_root h), relative?_below h, hend, Option.getD_some, reduceCtorEq,
    if_false, ne_eq, not_true_eq_false, decide_false, Bool.false_or]
  split
  · simp_all
  split <;> simp_all

/-- Only a regular file is a source. -/
theorem kind_of_verdict {kind : Entry.Kind} (h : verdict root exclude path kind = .source) :
    kind = .file := by
  cases kind with
  | file => rfl
  | dir =>
    simp only [verdict, if_true] at h
    repeat' split at h
    all_goals simp at h
  | socket =>
    simp only [verdict, reduceCtorEq, if_false, ne_eq, not_false_eq_true, decide_true, Bool.true_or,
      if_true] at h
    split at h <;> simp at h

end Verdict

/-! ### Eligible files -/

/-- All directories strictly between the root and what stands at `names` are entered: none has a name
that is never entered or a relative path that a pattern matches. -/
def Entered (exclude names : List Bytes) : Prop :=
  ∀ above name below, names = above ++ name :: below → below ≠ [] →
    name ∉ excludedDirs ∧ isExcluded exclude (Bytes.join "/" (above ++ [name])) = false

/-- The file that stands at `names` below the directory `top` counts as a source: it is a regular
file, its name ends in `.rs`, no pattern matches its relative path, and all directories on the way to
it are entered. -/
structure Eligible (top : Entry) (exclude names : List Bytes) : Prop where
  file : ∃ access content, top.get? names = some (.file access content)
  ending : ∃ above name, names = above ++ [name] ∧ Bytes.endsWith name ".rs" = true
  free : isExcluded exclude (Bytes.join "/" names) = false
  entered : Entered exclude names

/-- The file system lets the search look at all that it comes by below the directory `top`: it can
read the directories, also those that it does not enter then, and look up the entries of those that
it enters. -/
structure Admits (top : Entry) (root : Bytes) (exclude : List Bytes) : Prop where
  read : ∀ names access entries, top.get? names = some (.dir access entries) →
    Entered exclude names → access.read = true
  lookUp : ∀ above name access entries e, top.get? above = some (.dir access entries) →
    entries.get? name = some e → Entered exclude (above ++ [name]) →
      access.lookUp (Path.join (root :: (above ++ [name]))) name = .ok ()

theorem Eligible.ne_nil (h : Eligible top exclude names) : names ≠ [] := by
  obtain ⟨above, name, rfl, -⟩ := h.ending
  simp

/-- The search comes to an entry where every directory strictly below the root lets it pass. -/
theorem isReached_enters (hroot : root ≠ []) (hnames : ∀ name ∈ names, isName name = true) :
    isReached (enters root exclude) root names = true ↔ Entered exclude names := by
  have henters : ∀ above name below, names = above ++ name :: below →
      (enters root exclude (under root (above ++ [name])) = true ↔
        name ∉ excludedDirs ∧ isExcluded exclude (Bytes.join "/" (above ++ [name])) = false) := by
    intro above name below heq
    have hbelow : Below root (under root (above ++ [name])) (above ++ [name]) := by
      refine Path.below_under hroot (by simp) fun part hpart => hnames part ?_
      rw [heq, ← List.singleton_append, ← List.append_assoc]
      exact List.mem_append_left _ hpart
    rw [← verdict_dir hbelow, enters, beq_iff_eq]
  rw [Entry.isReached_iff]
  constructor
  · intro h above name below heq hne
    obtain ⟨next, more, rfl⟩ := List.exists_cons_of_ne_nil hne
    rw [← henters above name _ heq]
    exact h (above ++ [name]) next more (by rw [heq]; simp)
  · intro h above name below heq
    rcases List.eq_nil_or_concat above with rfl | ⟨above, last, rfl⟩
    · exact beq_iff_eq.2 (verdict_root root exclude .dir)
    · rw [List.concat_eq_append] at heq ⊢
      have heq' : names = above ++ last :: (name :: below) := by rw [heq]; simp
      rw [henters above last _ heq']
      exact h above last _ heq' (List.cons_ne_nil _ _)

/-! ### The search -/

/-- **The files that the search comes by** are the eligible ones, each at its names behind the
root. -/
theorem mem_listed_iff (htop : top.isWellNamed = true) (hroot : root ≠ []) :
    path ∈ listed top root exclude ↔
      ∃ names, Eligible top exclude names ∧ path = Path.join (root :: names) := by
  rw [listed, List.mem_mergeSort, mem_ofJudged, judged, judge, List.mem_map]
  constructor
  · rintro ⟨x, hx, heq⟩
    obtain ⟨rfl, hverdict⟩ := Prod.mk.inj heq
    obtain ⟨names, e, hget, hreached, rfl⟩ := (mem_tour_iff htop).1 hx
    have hnames := Entry.isName_of_get? htop hget
    have hkind := kind_of_verdict hverdict
    cases e with
    | file access content =>
      rcases List.eq_nil_or_concat names with rfl | ⟨above, name, rfl⟩
      · exact absurd ((verdict_root root exclude .file).symm.trans hverdict) (by simp)
      rw [List.concat_eq_append] at *
      have hbelow := Path.below_under hroot (by simp) hnames
      obtain ⟨hend, hfree⟩ := (verdict_file hbelow).1 hverdict
      exact ⟨_, ⟨⟨access, content, hget⟩, ⟨above, name, rfl, hend⟩, hfree,
        (isReached_enters hroot hnames).1 hreached⟩, Path.under_eq_join hroot (by simp) hnames⟩
    | dir access entries => cases hkind
    | socket access => cases hkind
  · rintro ⟨names, heligible, rfl⟩
    obtain ⟨access, content, hget⟩ := heligible.file
    have hne := heligible.ne_nil
    have hnames := Entry.isName_of_get? htop hget
    have hunder := Path.under_eq_join hroot hne hnames
    refine ⟨_, (mem_tour_iff htop).2
      ⟨names, _, hget, (isReached_enters hroot hnames).2 heligible.entered, rfl⟩, ?_⟩
    obtain ⟨above, name, rfl, hend⟩ := heligible.ending
    rw [hunder]
    exact congrArg (Prod.mk _) ((verdict_file (Path.below_join_names hroot hne hnames)).2
      ⟨hend, heligible.free⟩)

/-- The search admits all exactly where the walk that it makes is open to it. -/
theorem admits_iff (htop : top.isWellNamed = true) (hroot : root ≠ []) :
    Admits top root exclude ↔ Entry.IsOpen (enters root exclude) root top := by
  have hpath : ∀ above name access entries e, top.get? above = some (.dir access entries) →
      entries.get? name = some e →
        (isReached (enters root exclude) root (above ++ [name]) = true ↔
          Entered exclude (above ++ [name])) ∧
        under root (above ++ [name]) = Path.join (root :: (above ++ [name])) := by
    intro above name access entries e hget hname
    have hboth : top.get? (above ++ [name]) = some e := by
      rw [Entry.get?_append, hget]
      simp [Entry.get?, hname]
    have hnames := Entry.isName_of_get? htop hboth
    exact ⟨isReached_enters hroot hnames, Path.under_eq_join hroot (by simp) hnames⟩
  constructor
  · intro h
    refine ⟨fun names access entries hget hreached => ?_,
      fun above name access entries e hget hname hreached => ?_⟩
    · exact h.read names access entries hget
        ((isReached_enters hroot (Entry.isName_of_get? htop hget)).1 hreached)
    · obtain ⟨hentered, hunder⟩ := hpath above name access entries e hget hname
      rw [hunder]
      exact h.lookUp above name access entries e hget hname (hentered.1 hreached)
  · intro h
    refine ⟨fun names access entries hget hentered => ?_,
      fun above name access entries e hget hname hentered => ?_⟩
    · exact h.read names access entries hget
        ((isReached_enters hroot (Entry.isName_of_get? htop hget)).2 hentered)
    · obtain ⟨hreached, hunder⟩ := hpath above name access entries e hget hname
      rw [← hunder]
      exact h.lookUp above name access entries e hget hname (hreached.2 hentered)

/-- **What is found** is there, and is no directory. -/
theorem exists_entry_of_find {sources : List Bytes} {logs : List LogRecord}
    (ht : t.isWellNamed = true) (hfind : find t root exclude = .ok (sources, logs))
    (hpath : path ∈ sources) : ∃ e, t.entry path = .ok e ∧ e.isDir = false := by
  obtain ⟨-, top, hentry, ⟨hdir, hone⟩ | ⟨hdir, -⟩⟩ := find_spec ht hfind
  · rw [hone] at hpath
    exact ⟨top, List.mem_singleton.1 hpath ▸ hentry, hdir⟩
  · obtain ⟨htop, hroot⟩ := FileTree.isWellNamed_entry ht hentry
    obtain ⟨hwalk, rfl⟩ := walk_of_find hentry hdir hfind
    rw [upToError_snd, Entry.isOk_walk htop] at hwalk
    obtain ⟨names, heligible, rfl⟩ := (mem_listed_iff htop hroot).1 hpath
    obtain ⟨access, content, hget⟩ := heligible.file
    have hnames := Entry.isName_of_get? htop hget
    refine ⟨.file access content, ?_, rfl⟩
    rw [← Path.under_eq_join hroot heligible.ne_nil hnames]
    exact FileTree.entry_under hentry htop hwalk
      ((isReached_enters hroot hnames).2 heligible.entered) hget

end Search

/-- The patterns without special characters: each matches one path. -/
@[reducible] def plainGlobs : Globs := ⟨fun _ => true, fun pattern path => pattern == path⟩

/-- A directory with a source, entries of other kinds and two directories that are left out. -/
def crate : Entry :=
  let sub := Entry.dir {} (.cons "x.rs" (.file {} "") .nil)
  .dir {} (.cons "src" (.dir {} (.cons "a.c" (.file {} "") (.cons "gen" sub
    (.cons "lib.rs" (.file {} "") (.cons "s.rs" (.socket {}) (.cons "target" sub .nil)))))) .nil)

theorem eligible_lib : @Eligible plainGlobs crate ["src/gen"] ["src", "lib.rs"] := by
  let _ : Globs := plainGlobs
  refine ⟨⟨{}, "", rfl⟩, ⟨["src"], "lib.rs", rfl, by decide⟩, by decide, ?_⟩
  intro above name below h hne
  obtain ⟨rfl, rfl⟩ : above = [] ∧ name = Bytes.ofString "src" := by
    rcases above with _ | ⟨_, _ | ⟨_, above⟩⟩
    · exact ⟨rfl, (List.cons.inj h).1.symm⟩
    · exact absurd (List.cons.inj (List.cons.inj h).2).2.symm hne
    · simp at h
  decide

end GetterRename.Sources
