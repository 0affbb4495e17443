import GetterRename.Proofs.File.Tree
import GetterRename.Run.Fix

/-!
# The sources of a run

The names in a directory differ, so the paths of a walk differ, and the files they stand for as
well: each has its own names below the root.  A run finds its sources in strictly increasing byte
order, and there is a way to each of them from the directory that the run is based on.

* `Bytes.Before` — the strict byte order;
* `Entry.isWellNamed` — trees whose entries have proper names, different in each directory;
* `Entry.tour` — what a walk comes by that nothing is refused to;
* `Entry.nodup_tour` — it comes by each path once;
* `Sources.listed` — the sources that such a walk comes by;
* `Run.Plan.IsSeparate`, `Run.isSeparate_plan` — the sources of a run stand at different places.
-/

namespace GetterRename

open GetterRename.Path (isName Below)
open GetterRename.Path.Clean (ofPath)

/-! ### The byte order -/

namespace Bytes

/-- One text stands before another in the byte order. -/
def Before (a b : Bytes) : Prop := le a b = true ∧ a ≠ b

instance : DecidableRel Before := fun a b => by unfold Before; infer_instance

theorem le_trans {a b c : Bytes} (hab : le a b = true) (hbc : le b c = true) : le a c = true := by
  induction a generalizing b c with
  | nil => rfl
  | cons x a ih =>
    cases b with
    | nil => simp [le] at hab
    | cons y b =>
      cases c with
      | nil => simp [le] at hbc
      | cons z c =>
        simp only [le, Bool.or_eq_true, decide_eq_true_eq, Bool.and_eq_true, beq_iff_eq] at *
        rcases hab with hxy | ⟨rfl, hab⟩
        · rcases hbc with hyz | ⟨rfl, -⟩
          · exact .inl (UInt8.lt_trans hxy hyz)
          · exact .inl hxy
        · exact hbc.imp_right fun ⟨hyz, hbc⟩ => ⟨hyz, ih hab hbc⟩

theorem le_total (a b : Bytes) : (le a b || le b a) = true := by
  induction a generalizing b with
  | nil => rfl
  | cons x a ih =>
    cases b with
    | nil => rfl
    | cons y b =>
      have hrest := ih b
      rcases Nat.lt_trichotomy x.toNat y.toNat with h | h | h
      · simp [le, UInt8.lt_iff_toNat_lt.2 h]
      · obtain rfl := UInt8.toNat_inj.1 h
        simpa [le] using hrest
      · simp [le, UInt8.lt_iff_toNat_lt.2 h]

theorem le_antisymm {a b : Bytes} (hab : le a b = true) (hba : le b a = true) : a = b := by
  induction a generalizing b with
  | nil =>
    cases b with
    | nil => rfl
    | cons y b => simp [le] at hba
  | cons x a ih =>
    cases b with
    | nil => simp [le] at hab
    | cons y b =>
      simp only [le, Bool.or_eq_true, decide_eq_true_eq, Bool.and_eq_true, beq_iff_eq] at hab hba
      rcases hab with hxy | ⟨rfl, hab⟩
      · rcases hba with hyx | ⟨rfl, -⟩
        · exact absurd hyx (UInt8.lt_asymm hxy)
        · exact absurd hxy (UInt8.lt_irrefl _)
      · rcases hba with hxx | ⟨-, hba⟩
        · exact absurd hxx (UInt8.lt_irrefl _)
        · rw [ih hab hba]

/-- What is put in the order of different texts stands in their strict order. -/
theorem pairwise_before_mergeSort {α : Type} (key : α → Bytes) {items : List α}
    (h : (items.map key).Nodup) :
    (items.mergeSort fun a b => le (key a) (key b)).Pairwise fun a b =>
      Before (key a) (key b) := by
  have hsorted := List.pairwise_mergeSort (fun a b c => @le_trans (key a) (key b) (key c))
    (fun a b => le_total (key a) (key b)) items
  have hnodup : ((items.mergeSort fun a b => le (key a) (key b)).map key).Nodup :=
    ((List.mergeSort_perm items _).map key).nodup_iff.2 h
  exact hsorted.and (List.pairwise_map.1 hnodup)

end Bytes

/-! ### Well-named trees -/

def Entries.names : Entries → List Bytes
  | nil => []
  | cons name _ rest => name :: names rest

mutual

/-- Whether the entries of all directories have proper names, and different ones in each. -/
def Entry.isWellNamed : Entry → Bool
  | .dir _ entries => entries.isWellNamed
  | .file _ _ | .socket _ => true

def Entries.isWellNamed : Entries → Bool
  | .nil => true
  | .cons name entry rest =>
    isName name && !rest.names.contains name && entry.isWellNamed && rest.isWellNamed

end

def FileTree.isWellNamed (t : FileTree) : Bool := t.root.isWellNamed

theorem Entries.isWellNamed_cons {name : Bytes} {entry : Entry} {rest : Entries} :
    (cons name entry rest).isWellNamed = true ↔
      isName name = true ∧ name ∉ rest.names ∧ entry.isWellNamed = true ∧
        rest.isWellNamed = true := by
  simp [isWellNamed, and_assoc]

theorem Entries.isWellNamed_get? {name : Bytes} {entry : Entry} :
    ∀ {entries : Entries}, entries.isWellNamed = true → entries.get? name = some entry →
      entry.isWellNamed = true
  | .cons n e rest, h, hget => by
    obtain ⟨-, -, hentry, hrest⟩ := isWellNamed_cons.1 h
    unfold get? at hget
    split at hget
    · cases hget
      exact hentry
    · exact isWellNamed_get? hrest hget

theorem Entries.isName_of_get? {name : Bytes} {entry : Entry} :
    ∀ {entries : Entries}, entries.isWellNamed = true → entries.get? name = some entry →
      isName name = true
  | .cons n e rest, h, hget => by
    obtain ⟨hname, -, -, hrest⟩ := isWellNamed_cons.1 h
    unfold get? at hget
    split at hget
    · rename_i hn
      exact hn ▸ hname
    · exact isName_of_get? hrest hget

theorem Entry.isWellNamed_get? {e below : Entry} {names : List Bytes} (h : e.isWellNamed = true)
    (hget : e.get? names = some below) : below.isWellNamed = true := by
  induction names generalizing e with
  | nil =>
    cases hget
    exact h
  | cons name names ih =>
    obtain ⟨access, entries, e', rfl, he', hrest⟩ := exists_of_get?_cons hget
    exact ih (Entries.isWellNamed_get? h he') hrest

theorem FileTree.isWellNamed_entry {t : FileTree} {e : Entry} {path : Bytes}
    (h : t.isWellNamed = true) (hentry : t.entry path = .ok e) :
    e.isWellNamed = true ∧ path ≠ [] := by
  obtain ⟨names, hlocate, hget⟩ := entry_eq_ok.1 hentry
  exact ⟨Entry.isWellNamed_get? h hget, (locate_eq_ok.1 hlocate).1⟩

/-! ### Walks -/

theorem upToError_eq {ε α : Type} {found : List (Except ε α)} {as : List α} :
    upToError found = (as, none) ↔ found = as.map .ok := by
  induction found generalizing as with
  | nil => simp [upToError, eq_comm]
  | cons x found ih =>
    cases x with
    | error e => cases as <;> simp [upToError]
    | ok a =>
      cases as with
      | nil => simp [upToError]
      | cons b as =>
        rw [List.map_cons, List.cons.injEq, Except.ok.injEq, ← ih]
        simp [upToError, Prod.ext_iff, and_assoc]

theorem upToError_snd {ε α : Type} {found : List (Except ε α)} :
    (upToError found).2 = none ↔ found.all Except.isOk = true := by
  induction found with
  | nil => simp [upToError]
  | cons x found ih => cases x <;> simp [upToError, ih, Except.isOk, Except.toBool]

namespace Entry

variable {enter : Bytes → Bool}

mutual

/-- What a walk comes by where nothing is refused to it. -/
def tour (enter : Bytes → Bool) (path : Bytes) : Entry → List (Bytes × Kind)
  | dir _ entries => (path, .dir) :: if enter path then tourEntries enter path entries else []
  | file _ _ => [(path, .file)]
  | socket _ => [(path, .socket)]

def tourEntries (enter : Bytes → Bool) (path : Bytes) : Entries → List (Bytes × Kind)
  | .nil => []
  | .cons name entry rest =>
    tour enter (Path.join [path, name]) entry ++ tourEntries enter path rest

end

mutual

/-- **A walk to which nothing is refused** comes by what there is. -/
theorem eq_tour_of_walk : ∀ {path : Bytes} {e : Entry} {found : List (Bytes × Kind)},
    walk enter path e = found.map .ok → found = tour enter path e
  | path, .file _ _, found, h => by
    obtain ⟨x, rfl, hx⟩ := List.map_eq_singleton_iff.1 h.symm
    obtain rfl := Except.ok.inj hx
    rfl
  | path, .socket _, found, h => by
    obtain ⟨x, rfl, hx⟩ := List.map_eq_singleton_iff.1 h.symm
    obtain rfl := Except.ok.inj hx
    rfl
  | path, .dir access entries, found, h => by
    rw [walk] at h
    split at h
    · obtain ⟨x, rest, rfl, hx, hrest⟩ := List.map_eq_cons_iff.1 h.symm
      obtain rfl := Except.ok.inj hx
      rw [tour]
      split at hrest
      · rename_i henter
        rw [if_pos henter, eq_tourEntries_of_walk hrest.symm]
      · rename_i henter
        rw [if_neg henter, List.map_eq_nil_iff.1 hrest]
    · obtain ⟨x, rest, -, hx, -⟩ := List.map_eq_cons_iff.1 h.symm
      exact nomatch hx

theorem eq_tourEntries_of_walk : ∀ {path : Bytes} {access : Access} {entries : Entries}
    {found : List (Bytes × Kind)}, walkEntries enter path access entries = found.map .ok →
      found = tourEntries enter path entries
  | path, access, .nil, found, h => List.map_eq_nil_iff.1 h.symm
  | path, access, .cons name entry rest, found, h => by
    rw [walkEntries] at h
    obtain ⟨first, others, rfl, hfirst, hothers⟩ := List.map_eq_append_iff.1 h.symm
    rw [tourEntries, ← eq_tourEntries_of_walk hothers.symm]
    split at hfirst
    · rw [eq_tour_of_walk hfirst.symm]
    · obtain ⟨x, rest, -, hx, -⟩ := List.map_eq_cons_iff.1 hfirst
      exact nomatch hx

end

mutual

theorem below_of_mem_tour : ∀ {path : Bytes} {e : Entry}, e.isWellNamed = true → path ≠ [] →
    ∀ x ∈ tour enter path e, x.1 = path ∨ ∃ names, names ≠ [] ∧ Below path x.1 names
  | path, .file _ _, _, _, x, hx => .inl (by rw [tour, List.mem_singleton] at hx; rw [hx])
  | path, .socket _, _, _, x, hx => .inl (by rw [tour, List.mem_singleton] at hx; rw [hx])
  | path, .dir _ entries, h, hpath, x, hx => by
    rw [tour, List.mem_cons] at hx
    rcases hx with rfl | hx
    · exact .inl rfl
    · split at hx
      · obtain ⟨name, -, names, hbelow⟩ := below_of_mem_tourEntries h hpath x hx
        exact .inr ⟨name :: names, nofun, hbelow⟩
      · simp at hx

theorem below_of_mem_tourEntries : ∀ {path : Bytes} {entries : Entries},
    entries.isWellNamed = true → path ≠ [] → ∀ x ∈ tourEntries enter path entries,
      ∃ name ∈ entries.names, ∃ names, Below path x.1 (name :: names)
  | path, .nil, _, _, x, hx => by simp [tourEntries] at hx
  | path, .cons name entry rest, h, hpath, x, hx => by
    obtain ⟨hname, -, hentry, hrest⟩ := Entries.isWellNamed_cons.1 h
    have hjoin := Path.below_join hpath hname
    rw [tourEntries, List.mem_append] at hx
    rcases hx with hx | hx
    · refine ⟨name, List.mem_cons_self, ?_⟩
      rcases below_of_mem_tour hentry hjoin.ne_nil x hx with heq | ⟨names, -, hbelow⟩
      · exact ⟨[], heq ▸ hjoin⟩
      · exact ⟨names, hjoin.trans hbelow⟩
    · obtain ⟨other, hother, names, hbelow⟩ := below_of_mem_tourEntries hrest hpath x hx
      exact ⟨other, List.mem_cons_of_mem _ hother, names, hbelow⟩

end

mutual

/-- **A walk** comes by each path once. -/
theorem nodup_tour : ∀ {path : Bytes} {e : Entry}, e.isWellNamed = true → path ≠ [] →
    ((tour enter path e).map Prod.fst).Nodup
  | path, .file _ _, _, _ => by simp [tour]
  | path, .socket _, _, _ => by simp [tour]
  | path, .dir _ entries, h, hpath => by
    rw [tour, List.map_cons, List.nodup_cons]
    split
    · refine ⟨fun hmem => ?_, nodup_tourEntries h hpath⟩
      obtain ⟨x, hx, heq⟩ := List.mem_map.1 hmem
      obtain ⟨name, -, names, hbelow⟩ := below_of_mem_tourEntries h hpath x hx
      have hnames := congrArg Path.Clean.parts hbelow.names
      rw [heq] at hnames
      simp at hnames
    · simp

theorem nodup_tourEntries : ∀ {path : Bytes} {entries : Entries}, entries.isWellNamed = true →
    path ≠ [] → ((tourEntries enter path entries).map Prod.fst).Nodup
  | path, .nil, _, _ => by simp [tourEntries]
  | path, .cons name entry rest, h, hpath => by
    obtain ⟨hname, hnew, hentry, hrest⟩ := Entries.isWellNamed_cons.1 h
    have hone : (Entries.cons name entry .nil).isWellNamed = true :=
      Entries.isWellNamed_cons.2 ⟨hname, List.not_mem_nil, hentry, rfl⟩
    rw [tourEntries, List.map_append]
    refine List.nodup_append.2 ⟨nodup_tour hentry (Path.below_join hpath hname).ne_nil,
      nodup_tourEntries hrest hpath, ?_⟩
    -- the names below the directory start with the names of different entries
    rintro p hp q hq rfl
    obtain ⟨x, hx, rfl⟩ := List.mem_map.1 hp
    obtain ⟨y, hy, heq⟩ := List.mem_map.1 hq
    obtain ⟨first, hfirst, names, hbelow⟩ :=
      below_of_mem_tourEntries hone hpath x (by simpa [tourEntries] using hx)
    obtain rfl : first = name := List.mem_singleton.1 hfirst
    obtain ⟨other, hother, more, hbelow'⟩ := below_of_mem_tourEntries hrest hpath y hy
    have hnames := congrArg Path.Clean.parts (hbelow.names.symm.trans (heq ▸ hbelow'.names))
    simp only [List.append_cancel_left_eq, List.cons.injEq] at hnames
    exact hnew (hnames.1 ▸ hother)

end

end Entry

variable [Globs]

/-! ### Sources -/

namespace Sources

variable {t : FileTree} {top : Entry} {root path : Bytes} {exclude : List Bytes}

theorem verdict_root (root : Bytes) (exclude : List Bytes) (kind : Entry.Kind) :
    verdict root exclude root kind = .enteredDir := if_pos rfl

/-- The paths that the search comes by where nothing is refused to it, with their verdicts. -/
def judged (top : Entry) (root : Bytes) (exclude : List Bytes) : List (Bytes × Verdict) :=
  judge root exclude (top.tour (enters root exclude) root)

/-- The sources below `root`, where the directory `top` stands. -/
def listed (top : Entry) (root : Bytes) (exclude : List Bytes) : List Bytes :=
  (ofJudged (judged top root exclude)).mergeSort Bytes.le

omit [Globs] in
theorem mem_ofJudged {paths : List (Bytes × Verdict)} :
    path ∈ ofJudged paths ↔ (path, Verdict.source) ∈ paths := by
  rw [ofJudged, List.mem_filterMap]
  constructor
  · rintro ⟨⟨other, v⟩, hmem, heq⟩
    by_cases hv : v = .source
    · obtain rfl : other = path := by simpa [hv] using heq
      exact hv ▸ hmem
    · simp [hv] at heq
  · exact fun hmem => ⟨_, hmem, by simp⟩

omit [Globs] in
theorem ofJudged_sublist (paths : List (Bytes × Verdict)) :
    (ofJudged paths).Sublist (paths.map Prod.fst) := by
  induction paths with
  | nil => exact .slnil
  | cons x paths ih =>
    obtain ⟨path, v⟩ := x
    by_cases hv : v = .source
    · simpa [ofJudged, hv] using ih
    · simpa [ofJudged, hv] using ih.cons path

theorem pairwise_listed (htop : top.isWellNamed = true) (hroot : root ≠ []) :
    (listed top root exclude).Pairwise Bytes.Before := by
  have hpaths : ((judged top root exclude).map Prod.fst).Nodup := by
    rw [judged, judge, List.map_map]
    exact Entry.nodup_tour htop hroot
  have hnodup : ((ofJudged (judged top root exclude)).map id).Nodup := by
    rw [List.map_id]
    exact hpaths.sublist (ofJudged_sublist _)
  exact Bytes.pairwise_before_mergeSort id hnodup

/-- The sources are below the root. -/
theorem below_of_mem_listed (htop : top.isWellNamed = true) (hroot : root ≠ [])
    (hpath : path ∈ listed top root exclude) : ∃ names, Below root path names := by
  rw [listed, List.mem_mergeSort, mem_ofJudged, judged, judge] at hpath
  obtain ⟨x, hx, heq⟩ := List.mem_map.1 hpath
  obtain ⟨rfl, hsource⟩ := Prod.mk.inj heq
  rcases Entry.below_of_mem_tour htop hroot x hx with hx | ⟨names, -, hbelow⟩
  · rw [hx, verdict_root] at hsource
    exact nomatch hsource
  · exact ⟨names, hbelow⟩

/-- A search that succeeds has been refused nothing. -/
theorem walk_of_find {sources : List Bytes} {logs : List LogRecord}
    (hentry : t.entry root = .ok top) (hdir : top.isDir = true)
    (hfind : find t root exclude = .ok (sources, logs)) :
    (upToError (top.walk (enters root exclude) root)).2 = none ∧
      sources = listed top root exclude := by
  unfold find at hfind
  split at hfind
  · simp at hfind
  simp only [hentry, hdir, Bool.not_true, Bool.false_eq_true, if_false] at hfind
  rcases hwalk : upToError (top.walk (enters root exclude) root) with ⟨paths, refusal?⟩
  cases refusal? with
  | some cause => simp [hwalk] at hfind
  | none =>
    obtain rfl := Entry.eq_tour_of_walk (upToError_eq.1 hwalk)
    simp only [hwalk, Except.ok.injEq, Prod.mk.injEq] at hfind
    exact ⟨rfl, hfind.1.symm⟩

/-- **The sources** are the root itself, or paths below a root that is a directory; they come in
strictly increasing order. -/
theorem find_spec {sources : List Bytes} {logs : List LogRecord} (ht : t.isWellNamed = true)
    (h : find t root exclude = .ok (sources, logs)) :
    sources.Pairwise Bytes.Before ∧ ∃ top, t.entry root = .ok top ∧
      (top.isDir = false ∧ sources = [root] ∨
        top.isDir = true ∧ ∀ path ∈ sources, ∃ names, Below root path names) := by
  cases hentry : t.entry root with
  | error cause =>
    unfold find at h
    split at h
    · simp at h
    · simp [hentry] at h
  | ok top =>
    obtain ⟨htop, hroot⟩ := FileTree.isWellNamed_entry ht hentry
    cases hdir : top.isDir with
    | true =>
      obtain ⟨-, rfl⟩ := walk_of_find hentry hdir h
      exact ⟨pairwise_listed htop hroot, top, rfl,
        .inr ⟨hdir, fun path => below_of_mem_listed htop hroot⟩⟩
    | false =>
      obtain rfl : sources = [root] := by
        unfold find at h
        split at h
        · simp at h
        · simp only [hentry, hdir, Bool.not_false, if_true, Except.ok.injEq, Prod.mk.injEq] at h
          exact h.1.symm
      exact ⟨List.pairwise_singleton _ _, top, rfl, .inl ⟨hdir, rfl⟩⟩

end Sources

/-! ### Plans -/

namespace Run

variable {t : FileTree} {args : Args} {p : Plan}

omit [Globs] in
/-- The sources of a run come in strictly increasing order, there is a way to each of them, and they
stand at different places. -/
structure Plan.IsSeparate (t : FileTree) (p : Plan) : Prop where
  ordered : p.sources.Pairwise Bytes.Before
  relative : ∀ path ∈ p.sources, (Path.relative? p.base path).isSome = true
  places : ∀ path ∈ p.sources, ∀ other ∈ p.sources, t.place path = t.place other → path = other

omit [Globs] in
theorem Plan.IsSeparate.nodup (h : p.IsSeparate t) : p.sources.Nodup := h.ordered.imp And.right

/-- **The plan of a run.**  Its sources come in strictly increasing order: the file that the path of
the run stands for, based on its directory, or files below the directory that it stands for. -/
theorem plan_spec (ht : t.isWellNamed = true) (h : plan t args = .ok p) :
    p.sources.Pairwise Bytes.Before ∧ ∃ top, t.entry args.path = .ok top ∧
      (top.isDir = false ∧ p.sources = [args.path] ∧ p.base = Path.dir args.path ∨
        top.isDir = true ∧ p.base = args.path ∧
          ∀ path ∈ p.sources, ∃ names, Below args.path path names) := by
  unfold plan at h
  split at h
  · simp at h
  rename_i base hbase
  split at h
  · simp at h
  rename_i sources logs hfind
  obtain rfl := Except.ok.inj h
  obtain ⟨hordered, top, hentry, hsources⟩ := Sources.find_spec ht hfind
  have hbase : base = if top.isDir then args.path else Path.dir args.path := by
    simp only [baseDir, FileTree.stat, FileTree.info, hentry, Except.map] at hbase
    split at hbase
    · exact (Except.ok.inj hbase).symm
    · split at hbase
      · cases hbase
      · cases hbase
      · exact (Except.ok.inj hbase).symm
  refine ⟨hordered, top, hentry, ?_⟩
  rcases hsources with ⟨hdir, hone⟩ | ⟨hdir, hbelow⟩
  · exact .inl ⟨hdir, hone, by rw [hbase, hdir]; rfl⟩
  · exact .inr ⟨hdir, by rw [hbase, hdir]; rfl, hbelow⟩

/-- **The sources of a run** in a well-named tree. -/
theorem isSeparate_plan (ht : t.isWellNamed = true) (h : plan t args = .ok p) :
    p.IsSeparate t := by
  obtain ⟨hordered, -, -, ⟨-, hone, hbase⟩ | ⟨-, hbase, hbelow⟩⟩ := plan_spec ht h
  · -- a single file, which is based on its directory
    refine ⟨hordered, fun path hpath => ?_, fun path hpath other hother _ => ?_⟩
    · rw [hone] at hpath
      obtain rfl := List.mem_singleton.1 hpath
      rw [hbase]
      exact Path.relative?_dir _
    · rw [hone] at hpath hother
      rw [List.mem_singleton.1 hpath, List.mem_singleton.1 hother]
  · refine ⟨hordered, fun path hpath => ?_, fun path hpath other hother hplace => ?_⟩
    · obtain ⟨names, hpath⟩ := hbelow path hpath
      rw [hbase]
      exact Path.relative?_of_below hpath
    · obtain ⟨names, hpath⟩ := hbelow path hpath
      obtain ⟨names', hother⟩ := hbelow other hother
      rw [FileTree.place_below hpath.each hpath.names, FileTree.place_below hother.each hother.names,
        List.append_cancel_left_eq] at hplace
      exact hpath.unique (hplace ▸ hother)

end Run

end GetterRename
