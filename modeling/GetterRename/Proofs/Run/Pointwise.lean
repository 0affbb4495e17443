import GetterRename.Proofs.File.Eligible
import GetterRename.Proofs.Getter.Analysis
import GetterRename.Proofs.Getter.Path
import GetterRename.Proofs.Run.Turns

/-!
# A run is a map over its files

The outcome of a run is put together from what the work on each file gives on its own.  At the end
of a schedule each task has handed over the outcome that its file has in the tree before the run,
or it was refused; so the summary, the failures and the tree follow from the texts of the files and
from what the user may do with them.

* `newEntry`, `change?`, `goesThrough` — what becomes of one file;
* `outcomeAt_spec` — the work on one file, from its content and what the user may do with it;
* `Result.IsFaithful` — a summary that lists the files written, and nothing else is touched;
* `Result.IsPointwise` — a run that is a map over its files.
-/

namespace GetterRename.Run

open FileTree (Alike)
open GetterRename.Path.Clean (ofPath)

/-! ### One file -/

/-- The new text of a file: the old one where nothing is renamed or the file fails. -/
def newText (tool : Tool) (mode : Mode) (docAlias : DocAlias) (src : Bytes) : Bytes :=
  match rewrite? tool mode docAlias src with
  | some (text, _) => text
  | none => src

/-- What a run makes of an entry: a file that the user may read and write gets its new text. -/
def newEntry (args : Args) : Entry → Entry
  | .file access src =>
    .file access
      (if access.read && access.write then newText args.tool args.mode args.docAlias src else src)
  | e => e

/-- What a run reports of a file, nothing where the file stays as it is. -/
def change? (args : Args) (t : FileTree) (path : Bytes) : Option FileResult :=
  match t.entry path with
  | .ok (.file access src) =>
    if access.read && access.write then
      (rewrite? args.tool args.mode args.docAlias src).map fun (_, renames) => { path, renames }
    else none
  | _ => none

/-- Whether the work on a file does not fail: it can be read, its text can be worked on, and it can
be written where there is a new text. -/
def goesThrough (args : Args) (t : FileTree) (path : Bytes) : Bool :=
  match t.entry path with
  | .ok (.file access src) =>
    access.read && isFixable args.tool args.mode src &&
      (access.write || (rewrite? args.tool args.mode args.docAlias src).isNone)
  | _ => false

section File

variable {args : Args} {base : Bytes} {t : FileTree} {path : Bytes} {d : Draft}

variable (args) in
theorem draft_of_read {src : Bytes} (h : t.read path = .ok src) :
    (draft args t path).2 =
      (fixText args.tool args.mode args.docAlias path src).2.map
        (·.map fun (text, records) => ⟨src, text, records⟩) := by
  unfold draft FileTree.load
  simp only [h, Except.mapError]
  split
  · rename_i e he
    simp [he, Except.map]
  · rename_i hnone
    simp [hnone, Except.map]
  · rename_i text records hsome
    simp [hsome, Except.map]

variable (args base) in
theorem outcomeAt_of_unread
    (h : ∀ access src, t.entry path = .ok (.file access src) → access.read = false) :
    ∃ e, outcomeAt args base t path = .error e := by
  cases hread : t.read path with
  | error e => simp [outcomeAt_eq, draft, FileTree.load, hread, Except.mapError]
  | ok src =>
    obtain ⟨access, hmay, hentry⟩ := FileTree.read_eq_ok.1 hread
    simp [h access src hentry] at hmay

section Readable

variable {access : Access} {src : Bytes} (hentry : t.entry path = .ok (.file access src))
  (hread : access.read = true)

include hentry hread

variable (base) in
theorem outcomeAt_of_not_isFixable (h : isFixable args.tool args.mode src = false) :
    (∃ e, outcomeAt args base t path = .error e) ∧
      rewrite? args.tool args.mode args.docAlias src = none := by
  obtain ⟨⟨e, he⟩, hnone⟩ := fixText_of_not_isFixable path h args.docAlias
  have hdraft := draft_of_read args (FileTree.read_eq_ok.2 ⟨access, hread, hentry⟩)
  rw [he] at hdraft
  exact ⟨⟨e, by rw [outcomeAt_eq, hdraft]; rfl⟩, hnone⟩

/-- **A text that can be worked on** is all that the outcome of its file depends on, but for whether
the file can be written. -/
theorem outcomeAt_of_isFixable (hargs : args.IsInPlace)
    (hbase : (Path.relative? base path).isSome = true)
    (h : isFixable args.tool args.mode src = true) :
    outcomeAt args base t path =
      match rewrite? args.tool args.mode args.docAlias src with
      | none => .ok none
      | some (_, renames) =>
        if access.write then .ok (some { path, renames })
        else .error (.unwritable path ⟨"open", path, .permissionDenied⟩) := by
  have hdraft := draft_of_read args (FileTree.read_eq_ok.2 ⟨access, hread, hentry⟩)
  rw [fixText_of_isFixable path h] at hdraft
  cases hrewrite : rewrite? args.tool args.mode args.docAlias src with
  | none =>
    rw [hrewrite] at hdraft
    rw [outcomeAt_eq, hdraft]
    rfl
  | some new =>
    rw [hrewrite] at hdraft
    exact outcomeAt_of_draft (d := ⟨src, new.1, new.2⟩) hargs hbase hdraft hentry

end Readable

/-- **The outcome of a file**, from its content and what the user may do with it. -/
theorem outcomeAt_spec (hargs : args.IsInPlace) (hbase : (Path.relative? base path).isSome = true) :
    if goesThrough args t path then outcomeAt args base t path = .ok (change? args t path)
    else (∃ e, outcomeAt args base t path = .error e) ∧ change? args t path = none := by
  have hunread : (∀ access src, t.entry path = .ok (.file access src) → access.read = false) →
      ∃ e, outcomeAt args base t path = .error e := outcomeAt_of_unread args base
  cases hentry : t.entry path with
  | error cause => simpa [goesThrough, change?, hentry] using hunread
  | ok e =>
    cases e with
    | dir access entries => simpa [goesThrough, change?, hentry] using hunread
    | socket access => simpa [goesThrough, change?, hentry] using hunread
    | file access src =>
      cases hmay : access.read with
      | false => simpa [goesThrough, change?, hentry, hmay] using hunread
      | true =>
        cases hfix : isFixable args.tool args.mode src with
        | false =>
          obtain ⟨hfails, hnone⟩ := outcomeAt_of_not_isFixable base hentry hmay hfix
          simp [goesThrough, change?, hentry, hfix, hnone, hfails]
        | true =>
          rw [outcomeAt_of_isFixable hentry hmay hargs hbase hfix]
          cases hrewrite : rewrite? args.tool args.mode args.docAlias src with
          | none => simp [goesThrough, change?, hentry, hmay, hfix, hrewrite]
          | some new =>
            cases hwrite : access.write <;>
              simp [goesThrough, change?, hentry, hmay, hfix, hrewrite, hwrite]

theorem outcomeAt_of_goesThrough (hargs : args.IsInPlace)
    (hbase : (Path.relative? base path).isSome = true) (h : goesThrough args t path = true) :
    outcomeAt args base t path = .ok (change? args t path) := by
  simpa only [h, if_true] using outcomeAt_spec (t := t) hargs hbase

theorem outcomeAt_of_not_goesThrough (hargs : args.IsInPlace)
    (hbase : (Path.relative? base path).isSome = true) (h : goesThrough args t path = false) :
    (∃ e, outcomeAt args base t path = .error e) ∧ change? args t path = none := by
  simpa only [h, Bool.false_eq_true, if_false] using outcomeAt_spec (t := t) hargs hbase

/-- A file that is reported of had its text rewritten, and the user may read and write it. -/
theorem change?_eq_some {f : FileResult} (h : change? args t path = some f) :
    ∃ access src text, t.entry path = .ok (.file access src) ∧ access.read = true ∧
      access.write = true ∧ rewrite? args.tool args.mode args.docAlias src = some (text, f.renames) ∧
        f = { path, renames := f.renames } := by
  unfold change? at h
  split at h
  · rename_i access src hentry
    split at h
    · rename_i hmay
      obtain ⟨⟨text, renames⟩, hrewrite, rfl⟩ := Option.map_eq_some_iff.1 h
      obtain ⟨hread, hwrite⟩ := Bool.and_eq_true_iff.1 hmay
      exact ⟨access, src, text, hentry, hread, hwrite, hrewrite, rfl⟩
    · simp at h
  · simp at h

/-- A new text for a file that can be worked on, read and written is kept. -/
theorem isKept_of_rewrite {access : Access} {src text : Bytes} {renames : List Record}
    (hentry : t.entry path = .ok (.file access src)) (hread : access.read = true)
    (hwrite : access.write = true)
    (h : rewrite? args.tool args.mode args.docAlias src = some (text, renames)) :
    IsKept args t path ⟨src, text, renames⟩ access := by
  refine ⟨?_, hentry, hwrite⟩
  have hfix : isFixable args.tool args.mode src = true := by
    by_contra hno
    obtain ⟨-, hnone⟩ := fixText_of_not_isFixable path (Bool.not_eq_true _ ▸ hno) args.docAlias
    simp [hnone] at h
  rw [draft_of_read args (FileTree.read_eq_ok.2 ⟨access, hread, hentry⟩), fixText_of_isFixable path hfix,
    h]
  rfl

end File

/-! ### Tasks that are over -/

namespace Task

variable {args : Args} {base : Bytes} {t : FileTree} {path : Bytes} {stage : Stage}

/-- A task that is over has handed over the outcome of its file, or was refused. -/
theorem stage_of_isOver (hsound : IsSound args base t ⟨path, stage⟩) (hover : stage.isOver = true) :
    stage = .gathered (outcomeAt args base t path) ∨ stage = .refused := by
  cases stage with
  | gathered outcome => exact .inl (congrArg Stage.gathered hsound)
  | refused => exact .inr rfl
  | waiting | begun | admitted | drafted | settled => simp [Stage.isOver] at hover

section Gathered

variable (t) (hargs : args.IsInPlace) (hbase : (Path.relative? base path).isSome = true)

include hargs hbase

theorem result?_gathered :
    result? ⟨path, .gathered (outcomeAt args base t path)⟩ = change? args t path := by
  cases h : goesThrough args t path with
  | true => rw [outcomeAt_of_goesThrough hargs hbase h]; rfl
  | false =>
    obtain ⟨⟨e, he⟩, hnone⟩ := outcomeAt_of_not_goesThrough hargs hbase h
    rw [he, hnone]
    rfl

theorem failure?_gathered :
    failure? ⟨path, .gathered (outcomeAt args base t path)⟩ = none ↔
      goesThrough args t path = true := by
  cases h : goesThrough args t path with
  | true => simp [failure?, outcomeAt_of_goesThrough hargs hbase h]
  | false =>
    obtain ⟨⟨e, he⟩, -⟩ := outcomeAt_of_not_goesThrough hargs hbase h
    simp [failure?, he]

theorem change?_of_result? {f : FileResult} (hsound : IsSound args base t ⟨path, stage⟩)
    (h : result? ⟨path, stage⟩ = some f) : change? args t path = some f := by
  cases stage with
  | gathered outcome =>
    have houtcome : outcome = outcomeAt args base t path := hsound
    rw [← h, houtcome, result?_gathered t hargs hbase]
  | waiting | begun | admitted | drafted | settled | refused => simp [result?] at h

theorem written?_of_isOver (hsound : IsSound args base t ⟨path, stage⟩)
    (hover : stage.isOver = true) : written? ⟨path, stage⟩ = (result? ⟨path, stage⟩).map (·.path) := by
  rcases stage_of_isOver hsound hover with rfl | rfl
  · have hresult := result?_gathered t hargs hbase
    cases houtcome : outcomeAt args base t path with
    | error e => rfl
    | ok result =>
      cases result with
      | none => rfl
      | some f =>
        rw [houtcome] at hresult
        obtain ⟨-, -, -, -, -, -, -, hf⟩ := change?_eq_some hresult.symm
        simp only [written?, result?, Option.map_some]
        rw [hf]
  · rfl

end Gathered

theorem sublist_written? (tasks : List Task) :
    (tasks.filterMap written?).Sublist (tasks.map (·.path)) := by
  induction tasks with
  | nil => exact .slnil
  | cons task tasks ih =>
    cases h : task.written? with
    | none => simpa [h] using ih.cons task.path
    | some path =>
      obtain rfl := path_of_written? h
      simpa [h] using ih

end Task

/-! ### Pools that are over -/

namespace Pool

variable {args : Args} {t : FileTree} {plan : Plan} {p : Pool}

theorem Tracks.relative (h : Tracks args plan.base t plan.sources p) (hplan : plan.IsSeparate t)
    {task : Task} (htask : task ∈ p.tasks) : (Path.relative? plan.base task.path).isSome = true :=
  hplan.relative task.path (h.paths ▸ List.mem_map_of_mem htask)

theorem Tracks.perm_written (h : Tracks args plan.base t plan.sources p) (hplan : plan.IsSeparate t)
    (hargs : args.IsInPlace) (hover : p.isOver = true) : (p.results.map (·.path)).Perm p.written := by
  have hwritten : p.tasks.filterMap Task.written? =
      (p.tasks.filterMap Task.result?).map (·.path) := by
    rw [List.map_filterMap]
    exact List.filterMap_congr fun task htask =>
      Task.written?_of_isOver t hargs (h.relative hplan htask) (h.sound task htask)
        (List.all_eq_true.1 hover task htask)
  exact (h.results.map _).trans (.trans (.of_eq hwritten.symm) h.written.symm)

theorem Tracks.nodup_results (h : Tracks args plan.base t plan.sources p)
    (hplan : plan.IsSeparate t) (hargs : args.IsInPlace) (hover : p.isOver = true) :
    (p.results.map (·.path)).Nodup := by
  have hwritten : (p.tasks.filterMap Task.written?).Nodup :=
    hplan.nodup.sublist (h.paths ▸ Task.sublist_written? p.tasks)
  exact ((h.perm_written hplan hargs hover).trans h.written).nodup_iff.2 hwritten

/-- Without a cancellation all tasks hand over the outcomes of their files. -/
theorem Tracks.tasks_eq {base : Bytes} {sources : List Bytes} (h : Tracks args base t sources p)
    (hover : p.isOver = true) (hcancelled : p.cancelled = false) :
    p.tasks = sources.map fun path => ⟨path, .gathered (outcomeAt args base t path)⟩ := by
  rw [← h.paths, List.map_map]
  refine (List.map_id _).symm.trans (List.map_congr_left fun task htask => ?_)
  obtain ⟨path, stage⟩ := task
  have hrefused := h.uncancelled hcancelled _ htask
  rcases Task.stage_of_isOver (h.sound _ htask) (List.all_eq_true.1 hover _ htask) with rfl | rfl
  · rfl
  · simp [Stage.isRefused] at hrefused

end Pool

/-! ### Results -/

section Globs

variable [Globs]

/-- The sources of a run, none where there is no plan. -/
def sources (t : FileTree) (args : Args) : List Bytes :=
  match plan t args with
  | .ok p => p.sources
  | .error _ => []

/-- The paths of the files that a run writes, in the order of writing. -/
def writtenPaths (threads : Nat) (schedule : List Event) (t : FileTree) (args : Args) :
    List Bytes :=
  match plan t args with
  | .ok p => (p.pool threads schedule t args).written
  | .error _ => []

/-- Each source of a run is there, and is no directory. -/
theorem exists_entry_of_mem {args : Args} {t : FileTree} {path : Bytes} (ht : t.isWellNamed = true)
    (h : path ∈ sources t args) : ∃ e, t.entry path = .ok e ∧ e.isDir = false := by
  unfold sources at h
  split at h
  · rename_i p hplan
    unfold plan at hplan
    split at hplan
    · simp at hplan
    split at hplan
    · simp at hplan
    · rename_i sources logs hfind
      obtain rfl := Except.ok.inj hplan
      exact Sources.exists_entry_of_find ht hfind h
  · simp at h

namespace Result

/-- **A faithful result**: the summary lists the files written, in strictly increasing order of
their paths and with the records of what was done to them, and nothing else is touched. Here `t` is
the tree before the run. -/
structure IsFaithful (args : Args) (t : FileTree) (written : List Bytes) (r : Result) : Prop where
  ordered : r.summary.changed.Pairwise fun f g => Bytes.Before f.path g.path
  listed : ∀ path, path ∈ r.summary.changed.map (·.path) ↔ path ∈ written
  rewritten : ∀ f ∈ r.summary.changed, f.path ∈ sources t args ∧
    ∃ access src text, t.entry f.path = .ok (.file access src) ∧ access.read = true ∧
      access.write = true ∧ rewrite? args.tool args.mode args.docAlias src = some (text, f.renames) ∧
        f = { path := f.path, renames := f.renames } ∧
          r.tree.entry f.path = .ok (.file access text)
  unlisted : ∀ path ∈ sources t args, path ∉ r.summary.changed.map (·.path) →
    r.tree.entry path = t.entry path
  kept : ∀ names, (∀ f ∈ r.summary.changed, t.place f.path ≠ names) →
    r.tree.node? names = t.node? names

/-- **A pointwise result**: every source has the new text of its own old text, unless the user may
not read or write it; the summary lists the changes of the sources one by one, and the run fails if
a source does. -/
structure IsPointwise (args : Args) (t : FileTree) (r : Result) : Prop where
  content : ∀ path ∈ sources t args, ∃ e, t.entry path = .ok e ∧ e.isDir = false ∧
    r.tree.entry path = .ok (newEntry args e)
  changed : r.summary.changed = (sources t args).filterMap (change? args t)
  failures : r.failures = [] ↔
    (plan t args).isOk = true ∧ ∀ path ∈ sources t args, goesThrough args t path = true

end Result

namespace Pool

variable {args : Args} {t : FileTree} {plan : Plan} {p : Pool}

omit [Globs] in
variable (plan) in
theorem conclude_of_isInPlace (hargs : args.IsInPlace) (outcome : Outcome) :
    (plan.conclude args outcome).tree = outcome.tree ∧
      (plan.conclude args outcome).summary.changed = outcome.results ∧
        (plan.conclude args outcome).failures = outcome.failures := by
  simp [Plan.conclude, saveReport, hargs.report]

/-- **A pool that is over** makes for a faithful result. -/
theorem Tracks.isFaithful (ht : t.isWellNamed = true)
    (h : Tracks args plan.base t plan.sources p) (hplan : plan.IsSeparate t)
    (hargs : args.IsInPlace) (hsources : plan.sources = sources t args)
    (hover : p.isOver = true) :
    (plan.conclude args p.outcome).IsFaithful args t p.written := by
  obtain ⟨htree, hchanged, -⟩ := conclude_of_isInPlace plan hargs p.outcome
  have hsorted : p.outcome.results.Perm p.results := List.mergeSort_perm _ _
  have hlisted : ∀ path, path ∈ p.outcome.results.map (·.path) ↔ path ∈ p.written := fun path =>
    ((hsorted.map _).trans (h.perm_written hplan hargs hover)).mem_iff
  constructor
  · rw [hchanged]
    exact Bytes.pairwise_before_mergeSort FileResult.path (h.nodup_results hplan hargs hover)
  · rw [hchanged]
    exact hlisted
  · rw [hchanged, htree]
    intro f hf
    obtain ⟨task, htask, hresult⟩ :=
      List.mem_filterMap.1 (h.results.mem_iff.1 (hsorted.mem_iff.1 hf))
    obtain ⟨access, src, text, hentry, hread, hwrite, hrewrite, hfile⟩ := change?_eq_some
      (Task.change?_of_result? t hargs (h.relative hplan htask) (h.sound task htask) hresult)
    have hpath : f.path = task.path := congrArg FileResult.path hfile
    rw [← hpath] at hentry hfile
    have hwritten : f.path ∈ p.written := (hlisted f.path).1 (List.mem_map_of_mem hf)
    have hnode := h.new f.path hwritten _ _ (isKept_of_rewrite hentry hread hwrite hrewrite)
    exact ⟨hsources ▸ (h.exists_isKept hplan hargs hwritten).1, access, src, text, hentry, hread,
      hwrite, hrewrite, hfile, FileTree.entry_of_node? h.alike hentry hnode⟩
  · rw [hchanged, htree]
    intro path hpath hnot
    obtain ⟨e, hentry, hdir⟩ := exists_entry_of_mem ht hpath
    rw [hentry]
    exact FileTree.entry_of_map_bare hdir ((h.entry_eq hplan hargs (hsources ▸ hpath)
      fun hwritten => hnot ((hlisted path).2 hwritten)).trans (by rw [hentry]; rfl))
  · rw [hchanged, htree]
    intro names hnames
    refine h.kept names fun path hwritten hplace => ?_
    obtain ⟨f, hf, rfl⟩ := List.mem_map.1 ((hlisted path).2 hwritten)
    exact hnames f hf hplace

omit [Globs] in
/-- The summary of a pool without a cancellation lists the changes of the files one by one. -/
theorem Tracks.results_eq (h : Tracks args plan.base t plan.sources p) (hplan : plan.IsSeparate t)
    (hargs : args.IsInPlace) (hover : p.isOver = true) (hcancelled : p.cancelled = false) :
    p.outcome.results = plan.sources.filterMap (change? args t) := by
  have hresults : p.tasks.filterMap Task.result? = plan.sources.filterMap (change? args t) := by
    rw [h.tasks_eq hover hcancelled, List.filterMap_map]
    exact List.filterMap_congr fun path hpath =>
      Task.result?_gathered t hargs (hplan.relative path hpath)
  have hperm : p.outcome.results.Perm (plan.sources.filterMap (change? args t)) :=
    (List.mergeSort_perm _ _).trans (h.results.trans (.of_eq hresults))
  have hsorted : p.outcome.results.Pairwise fun f g => Bytes.Before f.path g.path :=
    Bytes.pairwise_before_mergeSort FileResult.path (h.nodup_results hplan hargs hover)
  have hpath : ∀ path f, f ∈ change? args t path → f.path = path := fun path f hf => by
    obtain ⟨-, -, -, -, -, -, -, hfile⟩ := change?_eq_some hf
    exact congrArg FileResult.path hfile
  have hordered : (plan.sources.filterMap (change? args t)).Pairwise fun f g =>
      Bytes.Before f.path g.path := by
    refine List.pairwise_filterMap.2 (hplan.ordered.imp fun hbefore f hf g hg => ?_)
    rw [hpath _ f hf, hpath _ g hg]
    exact hbefore
  exact hperm.eq_of_pairwise
    (fun f g _ _ hfg hgf => absurd (Bytes.le_antisymm hfg.1 hgf.1) hfg.2) hsorted hordered

omit [Globs] in
theorem Tracks.failures_eq_nil (h : Tracks args plan.base t plan.sources p)
    (hplan : plan.IsSeparate t) (hargs : args.IsInPlace) (hover : p.isOver = true)
    (hcancelled : p.cancelled = false) :
    p.outcome.failures = [] ↔ ∀ path ∈ plan.sources, goesThrough args t path = true := by
  have hrefused : p.tasks.any (·.stage.isRefused) = false := by
    simpa using h.uncancelled hcancelled
  have hfailures : p.outcome.failures = p.failures := by simp [Pool.outcome, hrefused]
  rw [hfailures, ← List.perm_nil, h.failures.congr_left, List.perm_nil, List.filterMap_eq_nil_iff,
    h.tasks_eq hover hcancelled, List.forall_mem_map]
  exact forall₂_congr fun path hpath =>
    Task.failure?_gathered t hargs (hplan.relative path hpath)

end Pool

namespace Result

variable {args : Args} {t : FileTree} {r : Result} {written : List Bytes}

theorem IsFaithful.content (ht : t.isWellNamed = true) (h : r.IsFaithful args t written)
    (hchanged : r.summary.changed = (sources t args).filterMap (change? args t)) :
    ∀ path ∈ sources t args, ∃ e, t.entry path = .ok e ∧ e.isDir = false ∧
      r.tree.entry path = .ok (newEntry args e) := by
  intro path hpath
  obtain ⟨e, hentry, hdir⟩ := exists_entry_of_mem ht hpath
  refine ⟨e, hentry, hdir, ?_⟩
  cases hchange : change? args t path with
  | some f =>
    have hf : f ∈ r.summary.changed := hchanged ▸ List.mem_filterMap.2 ⟨path, hpath, hchange⟩
    obtain ⟨-, access, src, text, hold, hread, hwrite, hrewrite, -, hnew⟩ := h.rewritten f hf
    obtain ⟨-, -, -, -, -, -, -, hfile⟩ := change?_eq_some hchange
    obtain rfl : f.path = path := congrArg FileResult.path hfile
    obtain rfl := Except.ok.inj (hold.symm.trans hentry)
    rw [hnew]
    simp [newEntry, newText, hread, hwrite, hrewrite]
  | none =>
    have hnot : path ∉ r.summary.changed.map (·.path) := by
      intro hmem
      obtain ⟨f, hf, rfl⟩ := List.mem_map.1 hmem
      obtain ⟨-, access, src, text, hold, hread, hwrite, hrewrite, -⟩ := h.rewritten f hf
      simp [change?, hold, hread, hwrite, hrewrite] at hchange
    rw [h.unlisted path hpath hnot, hentry]
    cases e with
    | dir access entries => rfl
    | socket access => rfl
    | file access src =>
      cases hmay : access.read && access.write with
      | false => simp [newEntry, hmay]
      | true =>
        have hnone : rewrite? args.tool args.mode args.docAlias src = none := by
          simpa [change?, hentry, hmay] using hchange
        simp [newEntry, newText, hnone]

/-- A run without a plan touches nothing. -/
theorem isFaithful_refused (e : Failure) : (refused t args e).IsFaithful args t [] where
  ordered := .nil
  listed := by simp [refused, Args.summary]
  rewritten := nofun
  unlisted := fun _ _ _ => rfl
  kept := fun _ _ => rfl

theorem isPointwise_refused (e : Failure) (h : plan t args = .error e) :
    (refused t args e).IsPointwise args t where
  content := by simp [sources, h]
  changed := by simp [sources, h, refused, Args.summary]
  failures := by simp [h, refused, Except.isOk, Except.toBool]

end Result

/-! ### Runs -/

/-- Turns of the tasks bring every run to its end. -/
theorem exists_more (threads : Nat) (schedule : List Event) (t : FileTree) (args : Args) :
    ∃ more, .cancel ∉ more ∧ (fixScheduled threads (schedule ++ more) t args).isSome = true := by
  cases hplan : plan t args with
  | error e => exact ⟨[], nofun, by simp [fixScheduled, hplan]⟩
  | ok plan =>
    obtain ⟨more, hcancel, hover⟩ :=
      Pool.exists_over args plan.base threads (plan.pool threads schedule t args)
    have hend : (plan.pool threads (schedule ++ more) t args).isOver = true := by
      rw [Plan.pool, Pool.run_append]
      exact hover
    exact ⟨more, hcancel, by simp [fixScheduled, hplan, hend]⟩

end Globs

/-- A directory with three files: the second has no outline, and the third cannot be written. -/
def smallTree : FileTree :=
  ⟨.dir {} (.cons "w" (.dir {} (.cons "b.rs" (.file {} "(")
    (.cons "a.rs" (.file {} "get_x(y.get_z())")
      (.cons "c.rs" (.file { write := false } "get_x(y.get_z())") .nil)))) .nil), []⟩

def smallArgs : Args :=
  { path := "/w", tool := .calls, mode := .allGetFunctions, docAlias := .generate }

theorem sources_smallTree :
    @sources Sources.plainGlobs smallTree smallArgs = ["/w/a.rs", "/w/b.rs", "/w/c.rs"] := by
  have hba : Bytes.le "/w/b.rs" "/w/a.rs" = false := by decide +kernel
  have hac : Bytes.le "/w/a.rs" "/w/c.rs" = true := by decide +kernel
  have hbc : Bytes.le "/w/b.rs" "/w/c.rs" = true := by decide +kernel
  have hsort : [Bytes.ofString "/w/b.rs", Bytes.ofString "/w/a.rs", "/w/c.rs"].mergeSort Bytes.le =
      [Bytes.ofString "/w/a.rs", Bytes.ofString "/w/b.rs", "/w/c.rs"] := by
    simp [List.mergeSort, hba, hac, hbc]
  refine Eq.trans ?_ hsort
  rfl

theorem newText_nestedCalls :
    newText .calls .allGetFunctions .generate "get_x(y.get_z())" = "x(y.z())\n" := by
  let c := Analysis.run [] .calls .allGetFunctions (Outline.read Analysis.nestedCalls)
  have herror : c.error.isNone = true := by decide +kernel
  have htool : c.ledger.tool = .calls := by decide +kernel
  have hout : (Patch.apply "get_x(y.get_z())" c.ledger .generate).output =
      some "x(y.z())\n" := by
    rw [@Patch.output_of_line _ "get_x(y.get_z())" _ _ [⟨0, 5, "x"⟩, ⟨8, 13, "z"⟩]
      (by decide +kernel) (htool ▸ Patch.noAlias_of_calls _) (by decide +kernel)
      (by simp [Line.Ascending]) (by decide +kernel) (by simp)]
    decide +kernel
  simp only [newText, rewrite?, Outline.ofSource, Analysis.lex_nestedCalls, Except.map]
  simp [c, herror, hout]

end GetterRename.Run
