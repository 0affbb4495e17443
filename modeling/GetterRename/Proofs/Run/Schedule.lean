import GetterRename.Proofs.File.Sources
import GetterRename.Run.Schedule
import Mathlib.Data.List.Nodup

/-!
# What a pool of tasks keeps

The sources of a run stand at different places, so a task that keeps its file changes nothing that
another task reads.  Whatever the order of steps, a task that is on its way to an outcome works on
the text that its file had before the run; and results, failures and written files add up to what
the tasks say.

* `Pool.Change` — all that a step can do to a pool;
* `Task.IsSound` — a task that works on the file as it was;
* `Pool.Tracks` — what the steps of a run keep;
* `Pool.tracks_step`, `Pool.tracks_run` — a step keeps it, and so does a run.
-/

namespace GetterRename.Run

open FileTree (Alike)

/-- Whether files are changed where they are: no output directory, no dry run, no report. -/
structure Args.IsInPlace (args : Args) : Prop where
  output : args.output = []
  dryRun : args.dryRun = false
  report : args.report = []

def Draft.result (path : Bytes) (d : Draft) : FileResult := { path, renames := d.records }

def outcomeAt (args : Args) (base : Bytes) (t : FileTree) (path : Bytes) :
    Except Failure (Option FileResult) :=
  (fixFile args base t path).2.2

/-- A file has a new text, and the user may write it. -/
structure IsKept (args : Args) (t : FileTree) (path : Bytes) (d : Draft) (access : Access) :
    Prop where
  draft : (draft args t path).2 = .ok (some d)
  entry : t.entry path = .ok (.file access d.src)
  write : access.write = true

/-! ### One file -/

section File

variable {args : Args} {t t' : FileTree} {base path : Bytes} {d : Draft} {access : Access}

/-- A draft depends on what is read. -/
theorem draft_congr (h : t'.read path = t.read path) : draft args t' path = draft args t path := by
  simp only [draft, FileTree.load, h]

theorem entry_of_draft (h : (draft args t path).2 = .ok (some d)) :
    ∃ access, t.entry path = .ok (.file access d.src) := by
  unfold draft FileTree.load at h
  cases hread : t.read path with
  | error e => simp [hread, Except.mapError] at h
  | ok src =>
    obtain ⟨access, -, hentry⟩ := FileTree.read_eq_ok.1 hread
    refine ⟨access, ?_⟩
    simp only [hread, Except.mapError] at h
    split at h
    · simp at h
    · simp at h
    · cases h
      exact hentry

/-- **A new text is kept** where its file was read, if the user may write it. -/
theorem keep_file (hargs : args.IsInPlace) {old : Bytes}
    (hbase : (Path.relative? base path).isSome = true)
    (hentry : t.entry path = .ok (.file access old)) (d : Draft) :
    ∃ logs, keep args base t path d =
      if access.write then
        (t.put (t.place path) (.file access d.text), logs, .ok (some (d.result path)))
      else (t, logs, .error (.unwritable path ⟨"open", path, .permissionDenied⟩)) := by
  obtain ⟨relative, hrelative⟩ := Option.isSome_iff_exists.1 hbase
  have hinfo : t.info path = .ok ⟨.file, access⟩ := by simp [FileTree.info, hentry, Entry.info]
  unfold keep
  simp only [hrelative, hargs.dryRun, Bool.false_eq_true, if_false, target, hargs.output,
    List.isEmpty_nil, if_true, hinfo, FileTree.save_file hentry]
  cases access.write <;> exact ⟨_, rfl⟩

theorem outcomeAt_eq (args : Args) (base : Bytes) (t : FileTree) (path : Bytes) :
    outcomeAt args base t path =
      match (draft args t path).2 with
      | .error e => .error e
      | .ok none => .ok none
      | .ok (some d) => (keep args base t path d).2.2 := by
  unfold outcomeAt fixFile
  rcases draft args t path with ⟨logs, e | _ | d⟩ <;> rfl

theorem outcomeAt_of_draft (hargs : args.IsInPlace)
    (hbase : (Path.relative? base path).isSome = true)
    (hdraft : (draft args t path).2 = .ok (some d))
    (hentry : t.entry path = .ok (.file access d.src)) :
    outcomeAt args base t path =
      if access.write then .ok (some (d.result path))
      else .error (.unwritable path ⟨"open", path, .permissionDenied⟩) := by
  obtain ⟨logs, hkeep⟩ := keep_file hargs hbase hentry d
  rw [outcomeAt_eq, hdraft]
  simp only [hkeep]
  split <;> rfl

theorem exists_isKept (hargs : args.IsInPlace) (hbase : (Path.relative? base path).isSome = true)
    {r : FileResult} (h : outcomeAt args base t path = .ok (some r)) :
    ∃ d access, IsKept args t path d access ∧ r = d.result path := by
  cases hdraft : (draft args t path).2 with
  | error e => simp [outcomeAt_eq, hdraft] at h
  | ok draft? =>
    cases draft? with
    | none => simp [outcomeAt_eq, hdraft] at h
    | some d =>
      obtain ⟨access, hentry⟩ := entry_of_draft hdraft
      rw [outcomeAt_of_draft hargs hbase hdraft hentry] at h
      split at h
      · rename_i hwrite
        exact ⟨d, access, ⟨hdraft, hentry, hwrite⟩, (Option.some.inj (Except.ok.inj h)).symm⟩
      · simp at h

end File

/-! ### Tasks -/

namespace Task

/-- The path of a task that has written its file. -/
def written? (task : Task) : Option Bytes :=
  match task.stage with
  | .settled (.ok (some _)) | .gathered (.ok (some _)) => some task.path
  | _ => none

def result? (task : Task) : Option FileResult :=
  match task.stage with
  | .gathered (.ok result) => result
  | _ => none

def failure? (task : Task) : Option Failure :=
  match task.stage with
  | .gathered (.error e) => some e
  | _ => none

/-- The task works on the file as it was in the tree. -/
def IsSound (args : Args) (base : Bytes) (t : FileTree) (task : Task) : Prop :=
  match task.stage with
  | .drafted d => (draft args t task.path).2 = .ok (some d)
  | .settled outcome | .gathered outcome => outcome = outcomeAt args base t task.path
  | _ => True

theorem path_of_written? {task : Task} {path : Bytes} (h : task.written? = some path) :
    task.path = path := by
  unfold written? at h
  split at h <;> simp_all

theorem result_of_written? {args : Args} {base : Bytes} {t : FileTree} {task : Task} {path : Bytes}
    (hsound : task.IsSound args base t) (h : task.written? = some path) :
    ∃ r, outcomeAt args base t path = .ok (some r) := by
  obtain rfl := path_of_written? h
  unfold written? at h
  unfold IsSound at hsound
  split at h
  · rename_i r hstage
    rw [hstage] at hsound
    exact ⟨r, hsound.symm⟩
  · rename_i r hstage
    rw [hstage] at hsound
    exact ⟨r, hsound.symm⟩
  · simp at h

end Task

/-! ### Steps -/

namespace Pool

/-- What a step can do to a pool. -/
inductive Change (args : Args) (base : Bytes) (p : Pool) : Pool → Prop where
  | stays : Change args base p p
  | cancels : Change args base p { p with cancelled := true }
  | begins {i : Nat} {path : Bytes} (h : p.tasks[i]? = some ⟨path, .waiting⟩) :
    Change args base p (p.move i path .begun)
  | admits {i : Nat} {path : Bytes} (h : p.tasks[i]? = some ⟨path, .begun⟩) :
    Change args base p (p.move i path .admitted)
  | refuses {i : Nat} {path : Bytes} (h : p.tasks[i]? = some ⟨path, .begun⟩)
    (hcancelled : p.cancelled = true) : Change args base p (p.move i path .refused)
  | reads {i : Nat} {path : Bytes} (h : p.tasks[i]? = some ⟨path, .admitted⟩) :
    Change args base p (p.read args i path)
  | writes {i : Nat} {path : Bytes} {d : Draft} (h : p.tasks[i]? = some ⟨path, .drafted d⟩) :
    Change args base p (p.write args base i path d)
  | gathers {i : Nat} {path : Bytes} {outcome : Except Failure (Option FileResult)}
    (h : p.tasks[i]? = some ⟨path, .settled outcome⟩) :
    Change args base p (p.gather i path outcome)

theorem change_step (args : Args) (base : Bytes) (threads : Nat) (p : Pool) (e : Event) :
    Change args base p (p.step args base threads e) := by
  cases e with
  | cancel => exact .cancels
  | turn i =>
    unfold step
    simp only
    split
    · rename_i task htask
      obtain ⟨path, stage⟩ := task
      cases stage with
      | waiting =>
        simp only [advance]
        split
        · exact .begins htask
        · exact .stays
      | begun =>
        cases hcancelled : p.cancelled with
        | false => simpa [advance, hcancelled] using .admits htask
        | true => simpa [advance, hcancelled] using .refuses htask hcancelled
      | admitted => exact .reads htask
      | drafted d => exact .writes htask
      | settled outcome => exact .gathers htask
      | gathered outcome => exact .stays
      | refused => exact .stays
    · exact .stays

/-! ### What the steps keep -/

/-- **What the steps of a run keep**, where `t` is the tree before the first of them. -/
structure Tracks (args : Args) (base : Bytes) (t : FileTree) (sources : List Bytes) (p : Pool) :
    Prop where
  paths : p.tasks.map (·.path) = sources
  sound : ∀ task ∈ p.tasks, task.IsSound args base t
  alike : Alike t p.tree
  kept : ∀ names, (∀ path ∈ p.written, t.place path ≠ names) →
    p.tree.node? names = t.node? names
  new : ∀ path ∈ p.written, ∀ d access, IsKept args t path d access →
    p.tree.node? (t.place path) = some (.file access d.text)
  written : p.written.Perm (p.tasks.filterMap Task.written?)
  results : p.results.Perm (p.tasks.filterMap Task.result?)
  failures : p.failures.Perm (p.tasks.filterMap Task.failure?)
  uncancelled : p.cancelled = false → ∀ task ∈ p.tasks, task.stage.isRefused = false

theorem tracks_start (args : Args) (base : Bytes) (t : FileTree) (sources : List Bytes) :
    Tracks args base t sources (start args t sources) where
  paths := by simp [start, Function.comp_def]
  sound := by simp [start, Task.IsSound]
  alike := .refl t
  kept := fun _ _ => rfl
  new := nofun
  written := by simp [start, Task.written?, List.filterMap_map, Function.comp_def]
  results := by simp [start, Task.result?, List.filterMap_map, Function.comp_def]
  failures := by simp [start, Task.failure?, List.filterMap_map, Function.comp_def]
  uncancelled := by simp [start, Stage.isRefused]

section Account

variable {α β : Type} {l : List α} {i : Nat} {a : α} {account : List β}

theorem exists_split_set (h : l[i]? = some a) :
    ∃ before after, l = before ++ a :: after ∧ ∀ b, l.set i b = before ++ b :: after := by
  obtain ⟨hi, rfl⟩ := List.getElem?_eq_some_iff.1 h
  refine ⟨l.take i, l.drop (i + 1), ?_, fun b => List.set_eq_take_append_cons_drop.trans ?_⟩
  · rw [List.getElem_cons_drop, List.take_append_drop]
  · rw [if_pos hi]

/-- A task that shows the same as before changes no account. -/
theorem account_same (f : α → Option β) (b : α) (hi : l[i]? = some a) (hf : f b = f a)
    (h : account.Perm (l.filterMap f)) : account.Perm ((l.set i b).filterMap f) := by
  obtain ⟨before, after, hl, hset⟩ := exists_split_set hi
  rw [hl] at h
  simpa only [hset, List.filterMap_append, List.filterMap_cons, hf] using h

/-- A task that shows something for the first time adds it to its account. -/
theorem account_more (f : α → Option β) (b : α) (hi : l[i]? = some a) (ha : f a = none)
    (h : account.Perm (l.filterMap f)) :
    (account ++ (f b).toList).Perm ((l.set i b).filterMap f) := by
  obtain ⟨before, after, hl, hset⟩ := exists_split_set hi
  refine (h.append_right _).trans ?_
  rw [hset, hl]
  cases hb : f b with
  | none => simp [ha, hb]
  | some x =>
    simp only [List.filterMap_append, List.filterMap_cons, ha, hb, Option.toList_some]
    rw [List.append_assoc]
    exact (List.perm_append_singleton x _).append_left _

end Account

variable {args : Args} {base : Bytes} {t : FileTree} {sources : List Bytes} {p : Pool} {i : Nat}
  {path : Bytes} {stage stage' : Stage}

theorem Tracks.paths_move (h : Tracks args base t sources p) (hi : p.tasks[i]? = some ⟨path, stage⟩) :
    (p.move i path stage').tasks.map (·.path) = sources := by
  obtain ⟨before, after, htasks, hset⟩ := exists_split_set hi
  rw [Pool.move, hset, ← h.paths, htasks]
  simp

theorem Tracks.sound_move (h : Tracks args base t sources p)
    (hsound : Task.IsSound args base t ⟨path, stage'⟩) :
    ∀ task ∈ (p.move i path stage').tasks, task.IsSound args base t := by
  intro task hmem
  rcases List.mem_or_eq_of_mem_set hmem with hmem | rfl
  · exact h.sound task hmem
  · exact hsound

theorem Tracks.uncancelled_move (h : Tracks args base t sources p)
    (hstage : p.cancelled = false → stage'.isRefused = false) :
    p.cancelled = false → ∀ task ∈ (p.move i path stage').tasks, task.stage.isRefused = false := by
  intro hcancelled task hmem
  rcases List.mem_or_eq_of_mem_set hmem with hmem | rfl
  · exact h.uncancelled hcancelled task hmem
  · exact hstage hcancelled

theorem Tracks.move (h : Tracks args base t sources p) (hi : p.tasks[i]? = some ⟨path, stage⟩)
    (hsound : Task.IsSound args base t ⟨path, stage'⟩)
    (hwritten : Task.written? ⟨path, stage'⟩ = Task.written? ⟨path, stage⟩)
    (hresult : Task.result? ⟨path, stage'⟩ = Task.result? ⟨path, stage⟩)
    (hfailure : Task.failure? ⟨path, stage'⟩ = Task.failure? ⟨path, stage⟩)
    (hrefused : p.cancelled = false → stage'.isRefused = false) :
    Tracks args base t sources (p.move i path stage') where
  paths := h.paths_move hi
  sound := h.sound_move hsound
  alike := h.alike
  kept := h.kept
  new := h.new
  written := account_same Task.written? _ hi hwritten h.written
  results := account_same Task.result? _ hi hresult h.results
  failures := account_same Task.failure? _ hi hfailure h.failures
  uncancelled := h.uncancelled_move hrefused

/-- What goes into the log makes no difference. -/
theorem Tracks.with_logs (h : Tracks args base t sources p) (logs : List LogRecord) :
    Tracks args base t sources { p with logs } :=
  ⟨h.paths, h.sound, h.alike, h.kept, h.new, h.written, h.results, h.failures, h.uncancelled⟩

theorem Tracks.mem_sources (h : Tracks args base t sources p)
    (hi : p.tasks[i]? = some ⟨path, stage⟩) : path ∈ sources :=
  h.paths ▸ List.mem_map.2 ⟨_, List.mem_of_getElem? hi, rfl⟩

/-- A task that has not written its file finds that no other has. -/
theorem Tracks.not_mem_written (h : Tracks args base t sources p) (hnodup : sources.Nodup)
    (hi : p.tasks[i]? = some ⟨path, stage⟩) (hstage : Task.written? ⟨path, stage⟩ = none) :
    path ∉ p.written := by
  intro hpath
  obtain ⟨task, htask, hwritten⟩ := List.mem_filterMap.1 (h.written.mem_iff.1 hpath)
  have hsame : task = ⟨path, stage⟩ :=
    List.inj_on_of_nodup_map (h.paths ▸ hnodup) htask (List.mem_of_getElem? hi)
      (Task.path_of_written? hwritten)
  rw [hsame, hstage] at hwritten
  simp at hwritten

variable {plan : Plan}

theorem Tracks.exists_isKept (h : Tracks args plan.base t plan.sources p)
    (hplan : plan.IsSeparate t) (hargs : args.IsInPlace) (hpath : path ∈ p.written) :
    path ∈ plan.sources ∧ ∃ d access, IsKept args t path d access := by
  obtain ⟨task, htask, hwritten⟩ := List.mem_filterMap.1 (h.written.mem_iff.1 hpath)
  obtain ⟨r, hr⟩ := Task.result_of_written? (h.sound task htask) hwritten
  have hsource : path ∈ plan.sources := by
    rw [← h.paths, ← Task.path_of_written? hwritten]
    exact List.mem_map_of_mem htask
  obtain ⟨d, access, hkept, -⟩ := Run.exists_isKept hargs (hplan.relative path hsource) hr
  exact ⟨hsource, d, access, hkept⟩

/-- **A file not yet written** is as before the run: no other source stands at its place. -/
theorem Tracks.entry_eq (h : Tracks args plan.base t plan.sources p) (hplan : plan.IsSeparate t)
    (hargs : args.IsInPlace) (hpath : path ∈ plan.sources) (hnew : path ∉ p.written) :
    (p.tree.entry path).map Entry.bare = (t.entry path).map Entry.bare := by
  refine FileTree.entry_congr h.alike (h.kept _ fun other hother hplace => hnew ?_)
  obtain ⟨hsource, -⟩ := h.exists_isKept hplan hargs hother
  exact hplan.places other hsource path hpath hplace ▸ hother

theorem Tracks.read_eq (h : Tracks args plan.base t plan.sources p) (hplan : plan.IsSeparate t)
    (hargs : args.IsInPlace) (hpath : path ∈ plan.sources) (hnew : path ∉ p.written) :
    p.tree.read path = t.read path := by
  rw [FileTree.read_eq, FileTree.read_eq, h.entry_eq hplan hargs hpath hnew]

/-- A file that was read has no account yet. -/
theorem quiet_ofDraft (path : Bytes) (outcome : Except Failure (Option Draft)) :
    Task.written? ⟨path, .ofDraft outcome⟩ = none ∧ Task.result? ⟨path, .ofDraft outcome⟩ = none ∧
      Task.failure? ⟨path, .ofDraft outcome⟩ = none ∧
        (Stage.ofDraft outcome).isRefused = false := by
  cases outcome with
  | error e => exact ⟨rfl, rfl, rfl, rfl⟩
  | ok draft? => cases draft? <;> exact ⟨rfl, rfl, rfl, rfl⟩

theorem tracks_read (h : Tracks args plan.base t plan.sources p) (hplan : plan.IsSeparate t)
    (hargs : args.IsInPlace) (hi : p.tasks[i]? = some ⟨path, .admitted⟩) :
    Tracks args plan.base t plan.sources (p.read args i path) := by
  have hnew := h.not_mem_written hplan.nodup hi rfl
  have hdraft : draft args p.tree path = draft args t path :=
    draft_congr (h.read_eq hplan hargs (h.mem_sources hi) hnew)
  have hsound : Task.IsSound args plan.base t ⟨path, .ofDraft (draft args t path).2⟩ := by
    cases houtcome : (draft args t path).2 with
    | error e => simp [Stage.ofDraft, Task.IsSound, outcomeAt_eq, houtcome]
    | ok draft? =>
      cases draft? <;> simp [Stage.ofDraft, Task.IsSound, outcomeAt_eq, houtcome]
  obtain ⟨hwritten, hresult, hfailure, hrefused⟩ := quiet_ofDraft path (draft args t path).2
  unfold Pool.read
  simp only [hdraft]
  exact (h.move hi hsound hwritten hresult hfailure fun _ => hrefused).with_logs _

/-- **A new text is put** where its file stands, and the task is settled. -/
theorem tracks_put (h : Tracks args plan.base t plan.sources p) (hplan : plan.IsSeparate t)
    (hargs : args.IsInPlace) {d : Draft} {access : Access}
    (hi : p.tasks[i]? = some ⟨path, .drafted d⟩) (hkept : IsKept args t path d access)
    (hentry : p.tree.entry path = .ok (.file access d.src)) (logs : List LogRecord) :
    Tracks args plan.base t plan.sources
      { p with
        tree := p.tree.put (p.tree.place path) (.file access d.text)
        tasks := p.tasks.set i ⟨path, .settled (.ok (some (d.result path)))⟩
        logs := p.logs ++ logs
        written := p.written ++ [path] } := by
  have hplace : p.tree.place path = t.place path := h.alike.place path
  have hsource := h.mem_sources hi
  have hsettled : Task.IsSound args plan.base t
      ⟨path, .settled (.ok (some (d.result path)))⟩ := by
    have houtcome := outcomeAt_of_draft hargs (hplan.relative path hsource) hkept.draft hkept.entry
    rw [hkept.write, if_pos rfl] at houtcome
    exact houtcome.symm
  refine ⟨h.paths_move hi, h.sound_move hsettled,
    h.alike.trans (FileTree.alike_replace hentry d.text), ?_, ?_, ?_, ?_, ?_,
    h.uncancelled_move fun _ => rfl⟩
  · intro names hnames
    have hother : names ≠ p.tree.place path := fun heq =>
      hnames path (by simp) (hplace.symm.trans heq.symm)
    rw [FileTree.node?_replace hentry, if_neg hother]
    exact h.kept names fun other hmem => hnames other (List.mem_append_left _ hmem)
  · intro other hmem d' access' hkept'
    rw [FileTree.node?_replace hentry, hplace]
    by_cases heq : other = path
    · subst heq
      obtain rfl : d = d' := Option.some.inj (Except.ok.inj (hkept.draft.symm.trans hkept'.draft))
      obtain ⟨rfl, -⟩ := Entry.file.inj (Except.ok.inj (hkept.entry.symm.trans hkept'.entry))
      rw [if_pos rfl]
    · -- another source stands at another place
      have hmem : other ∈ p.written := by simpa [heq] using hmem
      obtain ⟨hother, -⟩ := h.exists_isKept hplan hargs hmem
      rw [if_neg fun hplaces => heq (hplan.places other hother path hsource hplaces)]
      exact h.new other hmem d' access' hkept'
  · exact account_more Task.written? ⟨path, .settled (.ok (some (d.result path)))⟩ hi rfl h.written
  · exact account_same Task.result? _ hi rfl h.results
  · exact account_same Task.failure? _ hi rfl h.failures

theorem tracks_write (h : Tracks args plan.base t plan.sources p) (hplan : plan.IsSeparate t)
    (hargs : args.IsInPlace) {d : Draft} (hi : p.tasks[i]? = some ⟨path, .drafted d⟩) :
    Tracks args plan.base t plan.sources (p.write args plan.base i path d) := by
  have hdraft : (draft args t path).2 = .ok (some d) := h.sound _ (List.mem_of_getElem? hi)
  have hsource := h.mem_sources hi
  have hbase := hplan.relative path hsource
  obtain ⟨access, hentry⟩ := entry_of_draft hdraft
  have hsame := h.entry_eq hplan hargs hsource (h.not_mem_written hplan.nodup hi rfl)
  have hentry' : p.tree.entry path = .ok (.file access d.src) :=
    FileTree.entry_eq_file.2 (hsame.trans (FileTree.entry_eq_file.1 hentry))
  obtain ⟨logs, hkeep⟩ := keep_file hargs hbase hentry' d
  cases hwrite : access.write with
  | false =>
    -- the file fails, and the tree stays as it is
    have hsettled := outcomeAt_of_draft hargs hbase hdraft hentry
    rw [hwrite, if_neg (by simp)] at hkeep hsettled
    let outcome : Except Failure (Option FileResult) :=
      .error (.unwritable path ⟨"open", path, .permissionDenied⟩)
    have hsound : Task.IsSound args plan.base t ⟨path, .settled outcome⟩ := hsettled.symm
    have hpool : p.write args plan.base i path d =
        { p.move i path (.settled outcome) with logs := p.logs ++ logs } := by
      simp [Pool.write, Pool.move, hkeep, outcome, Except.isOk, Except.toBool]
    rw [hpool]
    exact (h.move hi hsound rfl rfl rfl fun _ => rfl).with_logs _
  | true =>
    have hput := tracks_put h hplan hargs hi ⟨hdraft, hentry, hwrite⟩ hentry' logs
    rw [hwrite, if_pos rfl] at hkeep
    simpa [Pool.write, Pool.move, hkeep, hargs.dryRun, Except.isOk, Except.toBool] using hput

theorem tracks_gather (h : Tracks args base t sources p) {outcome : Except Failure (Option FileResult)}
    (hi : p.tasks[i]? = some ⟨path, .settled outcome⟩) :
    Tracks args base t sources (p.gather i path outcome) := by
  have hsettled : Task.IsSound args base t ⟨path, .settled outcome⟩ :=
    h.sound _ (List.mem_of_getElem? hi)
  have hsound : Task.IsSound args base t ⟨path, .gathered outcome⟩ := hsettled
  cases outcome with
  | error e =>
    refine ⟨h.paths_move hi, h.sound_move hsound, h.alike, h.kept, h.new, ?_, ?_, ?_,
      h.uncancelled_move fun _ => rfl⟩
    · exact account_same Task.written? _ hi rfl h.written
    · exact account_same Task.result? _ hi rfl h.results
    · exact account_more Task.failure? ⟨path, .gathered (.error e)⟩ hi rfl h.failures
  | ok result =>
    have hwritten : Task.written? ⟨path, .gathered (.ok result)⟩ =
        Task.written? ⟨path, .settled (.ok result)⟩ := by cases result <;> rfl
    refine ⟨h.paths_move hi, h.sound_move hsound, h.alike, h.kept, h.new, ?_, ?_, ?_,
      h.uncancelled_move fun _ => rfl⟩
    · exact account_same Task.written? _ hi hwritten h.written
    · exact account_more Task.result? ⟨path, .gathered (.ok result)⟩ hi rfl h.results
    · exact account_same Task.failure? _ hi rfl h.failures

/-- **A step** keeps it. -/
theorem tracks_step (hplan : plan.IsSeparate t) (hargs : args.IsInPlace)
    (h : Tracks args plan.base t plan.sources p) (threads : Nat) (e : Event) :
    Tracks args plan.base t plan.sources (p.step args plan.base threads e) := by
  have hchange := change_step args plan.base threads p e
  generalize p.step args plan.base threads e = p' at hchange ⊢
  cases hchange with
  | stays => exact h
  | cancels =>
    exact ⟨h.paths, h.sound, h.alike, h.kept, h.new, h.written, h.results, h.failures, nofun⟩
  | begins hi => exact h.move hi trivial rfl rfl rfl fun _ => rfl
  | admits hi => exact h.move hi trivial rfl rfl rfl fun _ => rfl
  | refuses hi hcancelled =>
    exact h.move hi trivial rfl rfl rfl fun hno => absurd hcancelled (by simp [hno])
  | reads hi => exact tracks_read h hplan hargs hi
  | writes hi => exact tracks_write h hplan hargs hi
  | gathers hi => exact tracks_gather h hi

/-- **A run** keeps it, whatever its schedule. -/
theorem tracks_run (hplan : plan.IsSeparate t) (hargs : args.IsInPlace)
    (h : Tracks args plan.base t plan.sources p) (threads : Nat) (schedule : List Event) :
    Tracks args plan.base t plan.sources (p.run args plan.base threads schedule) := by
  induction schedule generalizing p with
  | nil => exact h
  | cons e schedule ih => exact ih (tracks_step hplan hargs h threads e)

@[simp] theorem cancelled_read : (p.read args i path).cancelled = p.cancelled := rfl

@[simp] theorem cancelled_write {d : Draft} :
    (p.write args base i path d).cancelled = p.cancelled := rfl

@[simp] theorem cancelled_gather {outcome : Except Failure (Option FileResult)} :
    (p.gather i path outcome).cancelled = p.cancelled := by
  cases outcome <;> rfl

theorem cancelled_turn (args : Args) (base : Bytes) (threads : Nat) (p : Pool) (i : Nat) :
    (p.step args base threads (.turn i)).cancelled = p.cancelled := by
  simp only [step]
  split
  · rename_i task _
    obtain ⟨path, stage⟩ := task
    cases stage with
    | waiting =>
      simp only [advance]
      split <;> rfl
    | begun => rfl
    | admitted => exact cancelled_read
    | drafted d => exact cancelled_write
    | settled outcome => exact cancelled_gather
    | gathered outcome => rfl
    | refused => rfl
  · rfl

theorem cancelled_run (args : Args) (base : Bytes) (threads : Nat) {schedule : List Event}
    (h : p.cancelled = false) (hschedule : Event.cancel ∉ schedule) :
    (p.run args base threads schedule).cancelled = false := by
  induction schedule generalizing p with
  | nil => exact h
  | cons e schedule ih =>
    rw [List.mem_cons, not_or] at hschedule
    refine ih ?_ hschedule.2
    cases e with
    | cancel => exact absurd rfl hschedule.1
    | turn i => exact (cancelled_turn args base threads p i).trans h

end Pool

end GetterRename.Run
